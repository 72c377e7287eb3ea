import MarketSignals.Proofs.Float.Arithmetic

/-!
# The ends of the range of floats

A result that is too large is an infinity, and one that is too small is a zero; both keep
the sign of the exact result.  Each infinity is one float, and there are two zeros.

## Main results

* `RoundsTo.cases` — what a number rounds to is finite, or one of the two infinities.
* `add_infinity`, `mul_infinity`, `infinity_div`, `div_infinity` — operations with infinities.
* `div_eq_zero_of_pos` — a quotient of positive floats is never the negative zero.
-/

namespace MarketSignals.Rounding

open Decimal (eq_of_toBits_eq toNat_unpackExponent toNat_unpackSign toNat_implicit bits_eq
  unpackSign_packComponents)
open Float.Model (Format UnpackedFloat)
open Float.Model.UnpackedFloat (Sign unpackSign unpackExponent unpackMantissa roundWithAccuracy
  shiftToTargetExponent Accuracy divCore)

variable {x y : Float} {q : ℚ}

/-! ## Infinities -/

/-- What a word may be unpacked to, with its sign where it has no magnitude. -/
theorem unpack_cases (b : BitVec 64) :
    (@unpackExponent Format.binary64 b = -1#11 ∧ @unpackMantissa Format.binary64 b = 0#52 ∧
      UnpackedFloat.unpack Format.binary64 b =
        .infinity (.ofBitVec (@unpackSign Format.binary64 b))) ∨
    UnpackedFloat.unpack Format.binary64 b = .notANumber ∨
    UnpackedFloat.unpack Format.binary64 b =
      .zero (.ofBitVec (@unpackSign Format.binary64 b)) ∨
    ∃ s m e h, UnpackedFloat.unpack Format.binary64 b = .finite s m e h := by
  unfold UnpackedFloat.unpack
  dsimp only
  by_cases hgreatest : @unpackExponent Format.binary64 b = -1#11
  · rw [if_pos hgreatest]
    by_cases hmantissa : @unpackMantissa Format.binary64 b = 0#52
    · exact .inl ⟨hgreatest, hmantissa, if_pos hmantissa⟩
    · exact .inr (.inl (if_neg hmantissa))
  · rw [if_neg hgreatest]
    by_cases hleast : @unpackExponent Format.binary64 b = 0#11
    · rw [if_pos hleast]
      by_cases hmantissa : @unpackMantissa Format.binary64 b = 0#52
      · exact .inr (.inr (.inl (dif_pos hmantissa)))
      · have hpos : 0 < (@unpackMantissa Format.binary64 b).toNat :=
          Nat.pos_of_ne_zero fun h => hmantissa (BitVec.eq_of_toNat_eq h)
        exact .inr (.inr (.inr ⟨_, _, _, hpos, dif_neg hmantissa⟩))
    · have hpos : 0 < (1#1 ++ @unpackMantissa Format.binary64 b).toNat := by
        rw [toNat_implicit]
        omega
      exact .inr (.inr (.inr ⟨_, _, _, hpos, if_neg hleast⟩))

/-- There is one float that is unpacked to an infinity of a sign. -/
theorem eq_packed_infinity {s : Sign} (h : x.toModel.unpack = .infinity s) :
    x = packed (.infinity s) := by
  have hunpack : UnpackedFloat.unpack Format.binary64 x.toBits.toBitVec = .infinity s := h
  rcases unpack_cases x.toBits.toBitVec with ⟨hexponent, hmantissa, heq⟩ | heq | heq |
    ⟨_, _, _, _, heq⟩
  · have hsign : Sign.ofBitVec (@unpackSign Format.binary64 x.toBits.toBitVec) = s :=
      UnpackedFloat.infinity.inj (heq.symm.trans hunpack)
    have hexponent : x.toBits.toNat / 2 ^ 52 % 2 ^ 11 = 2047 := by
      rw [← UInt64.toNat_toBitVec, ← toNat_unpackExponent, hexponent]
      rfl
    have hmantissa : x.toBits.toNat % 2 ^ 52 = 0 := congrArg BitVec.toNat hmantissa
    have htop : (@unpackSign Format.binary64 x.toBits.toBitVec).toNat =
        x.toBits.toNat / 2 ^ 63 := toNat_unpackSign x.toBits.toBitVec
    have hbits := bits_eq x.toBits.toNat x.toBits.toNat_lt
    rw [hexponent, hmantissa] at hbits
    refine eq_of_toBits_eq (UInt64.toNat_inj.mp ?_)
    rw [← hbits, ← hsign, Sign.ofBitVec]
    split
    next hzero =>
      rw [hzero] at htop
      rw [← htop]
      rfl
    next hone =>
      have hone : x.toBits.toNat / 2 ^ 63 = 1 := by
        have hlt := x.toBits.toNat_lt
        have hne : x.toBits.toNat / 2 ^ 63 ≠ 0 := fun hzero =>
          hone (BitVec.eq_of_toNat_eq (htop.trans hzero))
        omega
      rw [hone]
      rfl
  · cases heq.symm.trans hunpack
  · cases heq.symm.trans hunpack
  · cases heq.symm.trans hunpack

/-- The float above all others. -/
def infinity : Float := 1 / 0

theorem eq_infinity (h : x.toModel.unpack = .infinity .positive) : x = infinity :=
  eq_packed_infinity h

namespace RoundsTo

/-- What a number rounds to is finite, or the infinity on its side of zero. -/
theorem cases (h : RoundsTo x q) :
    (x.isFinite = true ∧ |q| < overflowPoint ∧ value x = rounded q) ∨
      (x = infinity ∧ overflowPoint ≤ q) ∨ (x = -infinity ∧ q ≤ -overflowPoint) := by
  cases h with
  | finite hx hq hvalue => exact .inl ⟨hx, hq, hvalue⟩
  | infinite s hx hq =>
      cases s with
      | positive => exact .inr (.inl ⟨eq_packed_infinity hx, hq⟩)
      | negative =>
          have hq : overflowPoint ≤ -q := hq
          exact .inr (.inr ⟨eq_packed_infinity hx, by linarith⟩)

/-- A number that is not negative rounds to a finite float or to infinity. -/
theorem cases_of_nonneg (h : RoundsTo x q) (hq : 0 ≤ q) :
    (x.isFinite = true ∧ q < overflowPoint ∧ value x = rounded q) ∨
      (x = infinity ∧ overflowPoint ≤ q) := by
  rcases h.cases with ⟨hx, hlt, hvalue⟩ | hinfinite | ⟨-, hneg⟩
  · exact .inl ⟨hx, (le_abs_self q).trans_lt hlt, hvalue⟩
  · exact .inr hinfinite
  · exact absurd overflowPoint_pos (by linarith)

theorem eq_infinity (h : RoundsTo x q) (hq : overflowPoint ≤ q) : x = infinity := by
  rcases h.cases_of_nonneg (overflowPoint_pos.le.trans hq) with ⟨-, hlt, -⟩ | ⟨hx, -⟩
  · exact absurd hlt (not_lt.mpr hq)
  · exact hx

end RoundsTo

theorem isInf_eq_false (hx : x.isFinite = true) : x.isInf = false := by
  show x.toModel.unpack.isInf = false
  rcases finite_cases hx with ⟨s, hs⟩ | ⟨d, hd, s, hs⟩
  · rw [hs]
    rfl
  · rw [hs]
    rfl

theorem ne_infinity (hx : x.isFinite = true) : ¬(x == infinity) = true := by
  show ¬(x.toModel.unpack.compare infinity.toModel.unpack == some .eq) = true
  rcases finite_cases hx with ⟨s, hs⟩ | ⟨d, hd, s, hs⟩
  · rw [hs]
    cases s <;> exact Bool.false_ne_true
  · rw [hs]
    cases s <;> exact Bool.false_ne_true

/-- A finite float is a number. -/
theorem isNaN_eq_false (hx : x.isFinite = true) : x.isNaN = false := (RoundsTo.self hx).not_nan

/-- What is below something is a number. -/
theorem isNaN_eq_false_of_lt (h : x < y) : x.isNaN = false := by
  have hcompare : (x.toModel.unpack.compare y.toModel.unpack == some .lt) = true :=
    of_decide_eq_true h
  show x.toModel.unpack.isNaN = false
  cases hu : x.toModel.unpack with
  | notANumber =>
      rw [hu] at hcompare
      cases hcompare
  | _ => rfl

/-- A float is finite, or an infinity, or not a number. -/
theorem finite_or_infinite (h : x.isNaN = false) :
    x.isFinite = true ∨ x = infinity ∨ x = -infinity := by
  have hnumber : x.toModel.unpack.isNaN = false := h
  by_cases hx : x.isFinite = true
  · exact .inl hx
  have hinfinite : ¬ x.toModel.unpack.isFinite = true := hx
  right
  cases hu : x.toModel.unpack with
  | zero s =>
      rw [hu] at hinfinite
      exact absurd rfl hinfinite
  | finite s m e hm =>
      rw [hu] at hinfinite
      exact absurd rfl hinfinite
  | notANumber =>
      rw [hu] at hnumber
      cases hnumber
  | infinity s =>
      cases s with
      | positive => exact .inl (eq_packed_infinity hu)
      | negative => exact .inr (eq_packed_infinity hu)

/-! ## Operations with infinities -/

theorem add_infinity (hx : x.isFinite = true) : x + infinity = infinity := by
  show packed (UnpackedFloat.add Format.binary64 x.toModel.unpack infinity.toModel.unpack) = _
  rcases finite_cases hx with ⟨s, hs⟩ | ⟨d, hd, s, hs⟩
  · rw [hs]
    rfl
  · rw [hs]
    rfl

theorem infinity_add (hx : x.isFinite = true) : infinity + x = infinity := by
  show packed (UnpackedFloat.add Format.binary64 infinity.toModel.unpack x.toModel.unpack) = _
  rcases finite_cases hx with ⟨s, hs⟩ | ⟨d, hd, s, hs⟩
  · rw [hs]
    rfl
  · rw [hs]
    rfl

theorem mul_infinity (hx : x.isFinite = true) (hpos : 0 < value x) : x * infinity = infinity := by
  obtain ⟨d, hd, hs⟩ := finite_cases_of_pos hx hpos
  show packed (UnpackedFloat.mul Format.binary64 x.toModel.unpack infinity.toModel.unpack) = _
  rw [hs]
  rfl

theorem infinity_div (hx : x.isFinite = true) (hpos : 0 < value x) : infinity / x = infinity := by
  obtain ⟨d, hd, hs⟩ := finite_cases_of_pos hx hpos
  show packed (UnpackedFloat.div Format.binary64 infinity.toModel.unpack x.toModel.unpack) = _
  rw [hs]
  rfl

theorem neg_infinity_div (hx : x.isFinite = true) (hpos : 0 < value x) :
    -infinity / x = -infinity := by
  obtain ⟨d, hd, hs⟩ := finite_cases_of_pos hx hpos
  show packed (UnpackedFloat.div Format.binary64 (-infinity).toModel.unpack x.toModel.unpack) = _
  rw [hs]
  rfl

/-- A finite float over infinity is a zero. -/
theorem div_infinity (hx : x.isFinite = true) : x / infinity = 0 ∨ x / infinity = -0 := by
  have hdiv : x / infinity =
      packed (UnpackedFloat.div Format.binary64 x.toModel.unpack infinity.toModel.unpack) := rfl
  rcases finite_cases hx with ⟨s, hs⟩ | ⟨d, hd, s, hs⟩
  · rw [hdiv, hs]
    cases s
    · exact .inr rfl
    · exact .inl rfl
  · rw [hdiv, hs]
    cases s
    · exact .inr rfl
    · exact .inl rfl

theorem div_infinity_of_pos (hx : x.isFinite = true) (hpos : 0 < value x) : x / infinity = 0 := by
  obtain ⟨d, hd, hs⟩ := finite_cases_of_pos hx hpos
  show packed (UnpackedFloat.div Format.binary64 x.toModel.unpack infinity.toModel.unpack) = _
  rw [hs]
  rfl

/-- A finite float over zero is the infinity on its side of zero, or is not a number. -/
theorem div_zero_eq (hx : x.isFinite = true) :
    x / 0 = if 0 < value x then infinity else if value x < 0 then -infinity else 0 / 0 := by
  have hdiv : x / 0 =
      packed (UnpackedFloat.div Format.binary64 x.toModel.unpack (0 : Float).toModel.unpack) := rfl
  rcases finite_cases hx with ⟨s, hs⟩ | ⟨d, hd, s, hs⟩
  · rw [hdiv, value_of_zero hs, hs, if_neg (lt_irrefl 0), if_neg (lt_irrefl 0)]
    cases s <;> rfl
  · have hpos := value_canonical_pos hd
    rw [hdiv, value_of_finite hs, hs]
    cases s
    · have hneg : signed .negative d.value < 0 := neg_lt_zero.mpr hpos
      rw [if_neg (not_lt.mpr hneg.le), if_pos hneg]
      rfl
    · have hpos : 0 < signed .positive d.value := hpos
      rw [if_pos hpos]
      rfl

theorem div_zero_of_pos (hx : x.isFinite = true) (hpos : 0 < value x) : x / 0 = infinity := by
  rw [div_zero_eq hx, if_pos hpos]

/-! ## Zeros -/

/-- There are two zeros. -/
theorem eq_zero_of_value_eq_zero (hx : x.isFinite = true) (hzero : value x = 0) :
    x = 0 ∨ x = -0 := by
  rcases Decimal.of_eq_of_isFinite hx with ⟨negative, h⟩ | ⟨negative, d, h⟩
  · rw [Decimal.eq_zero_of_zero h]
    cases negative
    · exact .inl rfl
    · exact .inr rfl
  · obtain ⟨hd, rfl⟩ := Decimal.eq_float_of_finite h
    rw [value_float, ← abs_eq_zero, abs_signed, abs_eq_zero] at hzero
    exact absurd hzero (value_canonical_pos hd).ne'

/-- The sign of a magnitude is stored as it is. -/
theorem unpackSign_pack (s : Sign) (m : ℕ) (e : ℤ) (hm : 0 < m) :
    @unpackSign Format.binary64 (UnpackedFloat.pack Format.binary64 (.finite s m e hm)) =
      s.toBitVec := by
  unfold UnpackedFloat.pack
  dsimp only
  split
  · exact unpackSign_packComponents s _ _
  · split
    · exact unpackSign_packComponents s _ _
    · exact unpackSign_packComponents s _ _

/-- A zero has the sign that is stored. -/
theorem sign_of_zero {s : Sign} (h : x.toModel.unpack = .zero s) :
    s = .ofBitVec (@unpackSign Format.binary64 x.toBits.toBitVec) := by
  have hunpack : UnpackedFloat.unpack Format.binary64 x.toBits.toBitVec = .zero s := h
  rcases unpack_cases x.toBits.toBitVec with ⟨-, -, heq⟩ | heq | heq | ⟨_, _, _, _, heq⟩
  · cases heq.symm.trans hunpack
  · cases heq.symm.trans hunpack
  · exact UnpackedFloat.zero.inj (hunpack.symm.trans heq)
  · cases heq.symm.trans hunpack

/-- Rounding keeps the sign. -/
theorem roundWithAccuracy_cases (s : Sign) (m : ℕ) (e : ℤ) (a : Accuracy) :
    roundWithAccuracy Format.binary64 s m e a = .zero s ∨
      ∃ n t h, roundWithAccuracy Format.binary64 s m e a = .finite s n t h := by
  let first := shiftToTargetExponent Format.binary64 m e a
  let last := shiftToTargetExponent Format.binary64 first.1.roundedMantissa first.2 .exact
  by_cases hzero : last.1.mantissa = 0
  · exact .inl (dif_pos hzero)
  · exact .inr ⟨last.1.mantissa, last.2, Nat.pos_of_ne_zero hzero, dif_neg hzero⟩

/-- What is rounded to a zero keeps its sign. -/
theorem packed_roundWithAccuracy_eq_zero {m : ℕ} {e : ℤ} {a : Accuracy}
    (hx : (packed (roundWithAccuracy Format.binary64 .positive m e a)).isFinite = true)
    (hzero : value (packed (roundWithAccuracy Format.binary64 .positive m e a)) = 0) :
    packed (roundWithAccuracy Format.binary64 .positive m e a) = 0 := by
  rcases eq_zero_of_value_eq_zero hx hzero with h | h
  · exact h
  exfalso
  rcases roundWithAccuracy_cases .positive m e a with heq | ⟨n, t, hn, heq⟩
  · rw [heq] at h
    exact absurd (congrArg Float.toBits h) (by decide)
  · have hsign := sign_of_zero (x := -0) (s := .negative) rfl
    rw [← h, heq] at hsign
    have hstored : Sign.negative = .ofBitVec (Sign.positive.toBitVec) := by
      rw [← unpackSign_pack .positive n t hn]
      exact hsign
    cases hstored

/-- A quotient of two positive floats that is too small for a float is the positive zero. -/
theorem div_eq_zero_of_pos (hx : x.isFinite = true) (hxpos : 0 < value x) (hy : y.isFinite = true)
    (hypos : 0 < value y) (hquotient : (x / y).isFinite = true) (hzero : value (x / y) = 0) :
    x / y = 0 := by
  obtain ⟨d, hd, hs⟩ := finite_cases_of_pos hx hxpos
  obtain ⟨d', hd', ht⟩ := finite_cases_of_pos hy hypos
  have hdiv : x / y = packed (roundWithAccuracy Format.binary64 .positive
      (divCore Format.binary64 d.mantissa d.exponent d'.mantissa d'.exponent).1
      (divCore Format.binary64 d.mantissa d.exponent d'.mantissa d'.exponent).2.1
      (divCore Format.binary64 d.mantissa d.exponent d'.mantissa d'.exponent).2.2) := by
    show packed (UnpackedFloat.div Format.binary64 x.toModel.unpack y.toModel.unpack) = _
    rw [hs, ht]
    rfl
  rw [hdiv] at hquotient hzero ⊢
  exact packed_roundWithAccuracy_eq_zero hquotient hzero

end MarketSignals.Rounding
