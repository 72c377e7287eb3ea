import MarketSignals.Proofs.Float.Value
import MarketSignals.Proofs.Decimal.Conversion

/-!
# Arithmetic of floats

A sum, a difference, a product or a quotient of finite floats is the exact result, rounded:
it is finite exactly if the exact result is in range, and then stands for what the exact
result rounds to.  An operation on a float that is not finite gives no finite sum and no
finite product.

## Main definitions

* `RoundsTo` — a float is what a number rounds to.

## Main results

* `roundsTo_add`, `roundsTo_sub`, `roundsTo_mul`, `roundsTo_div` — the operations round the
  exact result.
* `isFinite_of_add`, `isFinite_of_mul` — a finite result has finite operands.
-/

namespace MarketSignals.Rounding

open Decimal (Nearest Represents signOf two_zpow_pos exists_firstShift roundWithAccuracy_of_shifts
  shiftToTargetExponent_self shiftToTargetExponent_carry targetExponent_eq exists_divCore)
open Float.Model (Format UnpackedFloat totalExponent)
open Float.Model.UnpackedFloat (Sign ExtendedMantissa Accuracy shiftToTargetExponent
  roundWithAccuracy divCore decreaseExponent)

/-- A float is what a number rounds to: the number it rounds to if that is in range, and the
infinity on its side of zero otherwise. -/
inductive RoundsTo (x : Float) (q : ℚ) : Prop
  | finite (hx : x.isFinite = true) (hq : |q| < overflowPoint) (hvalue : value x = rounded q)
  | infinite (s : Sign) (hx : x.toModel.unpack = .infinity s) (hq : overflowPoint ≤ signed s q)

namespace RoundsTo

variable {x : Float} {q : ℚ}

theorem finite_iff (h : RoundsTo x q) : x.isFinite = true ↔ |q| < overflowPoint := by
  cases h with
  | finite hx hq hvalue => exact iff_of_true hx hq
  | infinite s hx hq =>
      have hinfinite : x.isFinite = false := by
        show x.toModel.unpack.isFinite = false
        rw [hx]
        rfl
      rw [hinfinite]
      refine iff_of_false Bool.false_ne_true (not_lt.mpr ?_)
      rw [← abs_signed s]
      exact hq.trans (le_abs_self _)

theorem value_eq (h : RoundsTo x q) (hx : x.isFinite = true) : value x = rounded q := by
  cases h with
  | finite hx' hq hvalue => exact hvalue
  | infinite s hx' hq =>
      have hfinite : x.toModel.unpack.isFinite = true := hx
      rw [hx'] at hfinite
      cases hfinite

theorem not_nan (h : RoundsTo x q) : x.isNaN = false := by
  show x.toModel.unpack.isNaN = false
  cases h with
  | finite hx hq hvalue =>
      rcases finite_cases hx with ⟨s, hs⟩ | ⟨d, hd, s, hs⟩
      · rw [hs]
        rfl
      · rw [hs]
        rfl
  | infinite s hx hq =>
      rw [hx]
      rfl

theorem of_value_eq (hx : x.isFinite = true) (hvalue : value x = rounded q) : RoundsTo x q := by
  refine .finite hx ?_ hvalue
  rw [← abs_rounded_lt_iff, ← hvalue, two_pow_1024]
  refine (abs_value_le hx).trans_lt ?_
  exact mul_lt_mul_of_pos_right (by norm_num) (two_zpow_pos _)

/-- A finite float is what the number it stands for rounds to. -/
theorem self (hx : x.isFinite = true) : RoundsTo x (value x) :=
  .of_value_eq hx (rounded_value_eq hx).symm

theorem of_zero (h : RoundsTo x q) (hq : q = 0) : x.isFinite = true ∧ value x = 0 := by
  have hx : x.isFinite = true := by
    rw [h.finite_iff, hq, abs_zero]
    exact overflowPoint_pos
  exact ⟨hx, by rw [h.value_eq hx, hq, rounded_zero]⟩

end RoundsTo

/-! ## Packing -/

theorem unpack_packed_zero (s : Sign) : (packed (.zero s)).toModel.unpack = .zero s := by
  cases s <;> rfl

theorem unpack_packed_infinity (s : Sign) :
    (packed (.infinity s)).toModel.unpack = .infinity s := by
  cases s <;> rfl

theorem unpack_packed_finite {d : Decimal.Dyadic} (hd : d.Canonical) (s : Sign) :
    (packed (.finite s d.mantissa d.exponent hd.pos)).toModel.unpack =
      .finite s d.mantissa d.exponent hd.pos := by
  obtain ⟨negative, rfl⟩ := exists_signOf s
  exact Decimal.unpack_float hd negative

/-- A greater exponent than that of any float is packed as an infinity. -/
theorem packed_overflow {s : Sign} {n : ℕ} {t : ℤ} (hn : 0 < n) (ht : 971 < t) :
    packed (.finite s n t hn) = packed (.infinity s) := by
  have hoverflow : 2 ^ Format.binary64.exponentBits ≤
      (t + (Format.binary64.exponentBias : ℕ) +
        (Format.binary64.mantissaBitsWithoutImplicit : ℕ)).toNat + 1 := by
    show 2 ^ 11 ≤ (t + (1023 : ℕ) + (52 : ℕ)).toNat + 1
    omega
  have hpack : UnpackedFloat.pack Format.binary64 (.finite s n t hn) =
      UnpackedFloat.pack Format.binary64 (.infinity s) := if_pos hoverflow
  have hmodel : Float.Model.pack (.finite s n t hn) = Float.Model.pack (.infinity s) := by
    rw [Float.Model.pack, Float.Model.pack, Float.Model.mk.injEq, hpack]
  rw [packed, packed, hmodel]

theorem roundsTo_zero {q : ℚ} (s : Sign) (hq : rounded q = 0) : RoundsTo (packed (.zero s)) q := by
  refine .of_value_eq (by cases s <;> rfl) ?_
  rw [hq, value_of_zero (unpack_packed_zero s)]

/-- A mantissa of fifty-three bits with an exponent, which may be too great. -/
theorem roundsTo_finite {q : ℚ} {s : Sign} {n : ℕ} {t : ℤ} (hn : 0 < n) (hlt : n < 2 ^ 53)
    (hleast : -1074 ≤ t) (hnormal : 2 ^ 52 ≤ n ∨ t = -1074)
    (hq : rounded q = signed s (n * 2 ^ t)) : RoundsTo (packed (.finite s n t hn)) q := by
  rcases le_or_gt t 971 with hgreatest | hgreatest
  · have hd : Decimal.Dyadic.Canonical ⟨n, t⟩ := ⟨hn, hlt, hleast, hgreatest, hnormal⟩
    have hunpack := unpack_packed_finite hd s
    refine .of_value_eq ?_ ?_
    · show (packed (.finite s n t hn)).toModel.unpack.isFinite = true
      rw [hunpack]
      rfl
    · rw [hq, value_of_finite hunpack]
      rfl
  · rw [packed_overflow hn hgreatest]
    refine .infinite s (unpack_packed_infinity s) (not_lt.mp ?_)
    rw [← rounded_lt_iff, rounded_signed, hq, signed_signed, two_pow_1024, not_lt]
    have hmantissa : (2 : ℚ) ^ 52 ≤ n := by exact_mod_cast hnormal.resolve_right (by omega)
    calc (2 : ℚ) ^ 53 * 2 ^ (971 : ℤ) = (2 : ℚ) ^ 52 * (2 : ℚ) ^ ((971 : ℤ) + 1) := by
          rw [zpow_add_one₀ (by norm_num)]
          ring
      _ ≤ (n : ℚ) * 2 ^ t := mul_le_mul hmantissa (zpow_le_zpow_right₀ (by norm_num) (by omega))
          (two_zpow_pos _).le (Nat.cast_nonneg n)

/-! ## Rounding -/

/-- What is computed exactly, to enough bits, is rounded: the mantissa is counted in units
of its last place and the count is rounded. -/
theorem roundsTo_roundWithAccuracy {m : ℕ} {e : ℤ} {a : Accuracy} {y : ℚ}
    (hy : Represents (ExtendedMantissa.ofMantissaAndAccuracy m a) y)
    (hbits : 52 ≤ m.log2 ∨ e ≤ -1074) (s : Sign) :
    RoundsTo (packed (roundWithAccuracy Format.binary64 s m e a)) (signed s (y * 2 ^ e)) := by
  obtain ⟨em, t, z, hfirst, hz, hvalue, hlt, hleast, hnormal⟩ := exists_firstShift hy hbits
  have hnonneg : 0 ≤ z := (Nat.cast_nonneg em.mantissa).trans hz.bounds.1
  have hcount : nearestWhole z = em.roundedMantissa := nearestWhole_eq hnonneg hz.nearest
  have hrounded : rounded (signed s (y * 2 ^ e)) =
      signed s ((em.roundedMantissa : ℚ) * 2 ^ t) := by
    rw [rounded_signed, hvalue, rounded_eq hnonneg hlt hleast hnormal hz.nearest]
  have hle : em.roundedMantissa ≤ 2 ^ 53 :=
    hcount ▸ nearestWhole_le hnonneg (by exact_mod_cast hlt.le)
  have hnormal' : 2 ^ 52 ≤ em.roundedMantissa ∨ t = -1074 := by
    rcases hnormal with hleast' | hnormal
    · exact .inr hleast'
    · exact .inl (hcount ▸ le_nearestWhole (by exact_mod_cast hnormal))
  rcases hle.lt_or_eq with hfits | hcarry
  · have hsecond := shiftToTargetExponent_self hfits hleast
    rcases Nat.eq_zero_or_pos em.roundedMantissa with hzero | hpos
    · have hround : roundWithAccuracy Format.binary64 s m e a = .zero s := by
        unfold roundWithAccuracy
        rw [hfirst]
        dsimp only
        rw [hsecond]
        exact dif_pos hzero
      rw [hround]
      refine roundsTo_zero s ?_
      rw [hrounded, hzero, Nat.cast_zero, zero_mul]
      cases s
      · exact neg_zero
      · rfl
    · rw [roundWithAccuracy_of_shifts hfirst hsecond hpos]
      exact roundsTo_finite hpos hfits hleast hnormal' hrounded
  · -- the count was carried to a power of two, which the second shift takes back
    have hsecond := shiftToTargetExponent_carry hleast
    rw [← hcarry] at hsecond
    rw [roundWithAccuracy_of_shifts hfirst hsecond (by decide)]
    refine roundsTo_finite (by decide) (by decide) (by omega) (.inl (Nat.le_refl _)) ?_
    rw [hrounded, hcarry, zpow_add_one₀ (by norm_num)]
    congr 1
    push_cast
    ring

/-- A shift to the left adds the places to the logarithm. -/
theorem le_log2_shiftLeft {m k : ℕ} (hm : 0 < m) (h : 52 ≤ m.log2 + k) : 52 ≤ (m <<< k).log2 := by
  rw [Nat.shiftLeft_eq, Nat.le_log2 (Nat.ne_of_gt (Nat.mul_pos hm (Nat.two_pow_pos k)))]
  calc 2 ^ 52 ≤ 2 ^ (m.log2 + k) := Nat.pow_le_pow_right (by decide) h
    _ = 2 ^ m.log2 * 2 ^ k := pow_add _ _ _
    _ ≤ m * 2 ^ k := Nat.mul_le_mul_right _ (Nat.log2_self_le (Nat.ne_of_gt hm))

/-- A whole number of units is rounded after it is given enough bits. -/
theorem roundsTo_round (s : Sign) {m : ℕ} (hm : 0 < m) (e : ℤ) :
    RoundsTo (packed (UnpackedFloat.round Format.binary64 s m e)) (signed s (m * 2 ^ e)) := by
  obtain ⟨k, hk⟩ : ∃ k : ℕ,
      k = (e - Format.binary64.targetExponent (totalExponent m e)).toNat := ⟨_, rfl⟩
  have hround : UnpackedFloat.round Format.binary64 s m e =
      roundWithAccuracy Format.binary64 s (m <<< k) (e - k) .exact := by
    rw [hk]
    rfl
  have hvalue : (m : ℚ) * 2 ^ e = ((m <<< k : ℕ) : ℚ) * 2 ^ (e - k) := by
    rw [zpow_sub₀ (by norm_num), zpow_natCast, Nat.shiftLeft_eq]
    push_cast
    field_simp
  have hexact : Represents (ExtendedMantissa.ofMantissaAndAccuracy (m <<< k) .exact)
      ((m <<< k : ℕ) : ℚ) := rfl
  have hbits : 52 ≤ (m <<< k).log2 ∨ e - k ≤ -1074 := by
    rw [targetExponent_eq] at hk
    by_cases hlog : 52 ≤ m.log2 + k
    · exact .inl (le_log2_shiftLeft hm hlog)
    · right
      omega
  rw [hround, hvalue]
  exact roundsTo_roundWithAccuracy hexact hbits s

theorem roundsTo_normalize (m e : ℤ) :
    RoundsTo (packed (UnpackedFloat.normalize Format.binary64 m e .positive)) (m * 2 ^ e) := by
  unfold UnpackedFloat.normalize
  rcases lt_trichotomy m 0 with h | rfl | h
  · obtain ⟨n, rfl⟩ : ∃ n : ℕ, m = -n := ⟨m.natAbs, by omega⟩
    have hround := roundsTo_round .negative (show 0 < n by omega) e
    rw [Int.compare_eq_lt.mpr h]
    simp only [neg_neg, Int.toNat_natCast]
    rwa [signed, ← neg_mul, ← Int.cast_natCast (R := ℚ) n, ← Int.cast_neg] at hround
  · rw [Int.cast_zero, zero_mul]
    exact roundsTo_zero .positive rounded_zero
  · obtain ⟨n, rfl⟩ : ∃ n : ℕ, m = n := ⟨m.natAbs, by omega⟩
    have hround := roundsTo_round .positive (show 0 < n by omega) e
    rw [Int.compare_eq_gt.mpr h]
    simp only [Int.toNat_natCast]
    rwa [signed, ← Int.cast_natCast (R := ℚ) n] at hround

/-! ## Operations -/

variable {x y : Float}

theorem cast_apply (s : Sign) (n : ℕ) : ((s.apply n : ℤ) : ℚ) = signed s n := by
  cases s
  · exact Int.cast_neg (n : ℤ)
  · exact Int.cast_natCast n

theorem signed_mul_right (s : Sign) (q r : ℚ) : signed s (q * r) = signed s q * r := by
  cases s
  · exact (neg_mul q r).symm
  · rfl

/-- Both mantissas are counted in the smaller unit. -/
theorem cast_decreaseExponent (s : Sign) (m : ℕ) {e t : ℤ} (h : t ≤ e) :
    ((s.apply (decreaseExponent m e t).1 : ℤ) : ℚ) * 2 ^ t = signed s (m * 2 ^ e) := by
  obtain ⟨k, rfl⟩ : ∃ k : ℕ, e = k + t := ⟨(e - t).toNat, by omega⟩
  have hmantissa : (decreaseExponent m (k + t) t).1 = m * 2 ^ k := by
    show m <<< (k + t - t).toNat = _
    rw [Nat.shiftLeft_eq, add_sub_cancel_right, Int.toNat_natCast]
  rw [cast_apply, hmantissa, ← signed_mul_right, zpow_add₀ (by norm_num), zpow_natCast]
  push_cast
  rw [mul_assoc]

/-- A sum is the exact sum, rounded. -/
theorem roundsTo_add (hx : x.isFinite = true) (hy : y.isFinite = true) :
    RoundsTo (x + y) (value x + value y) := by
  show RoundsTo (packed (UnpackedFloat.add Format.binary64 x.toModel.unpack y.toModel.unpack)) _
  rcases finite_cases hx with ⟨s, hs⟩ | ⟨d, hd, s, hs⟩ <;>
    rcases finite_cases hy with ⟨t, ht⟩ | ⟨d', hd', t, ht⟩
  · rw [value_of_zero hs, value_of_zero ht, hs, ht, add_zero]
    cases s <;> cases t <;> exact roundsTo_zero _ rounded_zero
  · rw [value_of_zero hs, zero_add, value_of_finite ht, hs, ht]
    refine roundsTo_finite hd'.pos hd'.lt hd'.least hd'.normal ?_
    rw [rounded_signed, rounded_value hd']
    rfl
  · rw [value_of_zero ht, add_zero, value_of_finite hs, hs, ht]
    refine roundsTo_finite hd.pos hd.lt hd.least hd.normal ?_
    rw [rounded_signed, rounded_value hd]
    rfl
  · have hsum := roundsTo_normalize
      (s.apply (decreaseExponent d.mantissa d.exponent (min d.exponent d'.exponent)).1 +
        t.apply (decreaseExponent d'.mantissa d'.exponent (min d.exponent d'.exponent)).1)
      (min d.exponent d'.exponent)
    rw [Int.cast_add, add_mul, cast_decreaseExponent s _ (min_le_left _ _),
      cast_decreaseExponent t _ (min_le_right _ _)] at hsum
    rw [value_of_finite hs, value_of_finite ht, hs, ht]
    exact hsum

/-- A difference is the exact difference, rounded. -/
theorem roundsTo_sub (hx : x.isFinite = true) (hy : y.isFinite = true) :
    RoundsTo (x - y) (value x - value y) := by
  show RoundsTo (packed (UnpackedFloat.sub Format.binary64 x.toModel.unpack y.toModel.unpack)) _
  rcases finite_cases hx with ⟨s, hs⟩ | ⟨d, hd, s, hs⟩ <;>
    rcases finite_cases hy with ⟨t, ht⟩ | ⟨d', hd', t, ht⟩
  · rw [value_of_zero hs, value_of_zero ht, hs, ht, sub_zero]
    cases s <;> cases t <;> exact roundsTo_zero _ rounded_zero
  · rw [value_of_zero hs, zero_sub, value_of_finite ht, hs, ht]
    refine roundsTo_finite hd'.pos hd'.lt hd'.least hd'.normal ?_
    rw [rounded_neg, rounded_signed, rounded_value hd']
    cases t
    · exact neg_neg _
    · rfl
  · rw [value_of_zero ht, sub_zero, value_of_finite hs, hs, ht]
    refine roundsTo_finite hd.pos hd.lt hd.least hd.normal ?_
    rw [rounded_signed, rounded_value hd]
    rfl
  · have hdifference := roundsTo_normalize
      (s.apply (decreaseExponent d.mantissa d.exponent (min d.exponent d'.exponent)).1 -
        t.apply (decreaseExponent d'.mantissa d'.exponent (min d.exponent d'.exponent)).1)
      (min d.exponent d'.exponent)
    rw [Int.cast_sub, sub_mul, cast_decreaseExponent s _ (min_le_left _ _),
      cast_decreaseExponent t _ (min_le_right _ _)] at hdifference
    rw [value_of_finite hs, value_of_finite ht, hs, ht]
    exact hdifference

/-- The product of two mantissas has enough bits if one is normal, and the least exponent
otherwise. -/
theorem roundsTo_mul_finite {d d' : Decimal.Dyadic} (hd : d.Canonical) (hd' : d'.Canonical)
    (s t : Sign) :
    RoundsTo (packed (UnpackedFloat.mul Format.binary64
      (.finite s d.mantissa d.exponent hd.pos) (.finite t d'.mantissa d'.exponent hd'.pos)))
      (signed s d.value * signed t d'.value) := by
  have hexact : Represents
      (ExtendedMantissa.ofMantissaAndAccuracy (d.mantissa * d'.mantissa) .exact)
      ((d.mantissa * d'.mantissa : ℕ) : ℚ) := rfl
  have hbits : 52 ≤ (d.mantissa * d'.mantissa).log2 ∨ d.exponent + d'.exponent ≤ -1074 := by
    rw [Nat.le_log2 (Nat.ne_of_gt (Nat.mul_pos hd.pos hd'.pos))]
    rcases hd.normal with hnormal | hleast
    · exact .inl (hnormal.trans (Nat.le_mul_of_pos_right _ hd'.pos))
    rcases hd'.normal with hnormal | hleast'
    · exact .inl (hnormal.trans (Nat.le_mul_of_pos_left _ hd.pos))
    · right
      omega
  have hvalue : signed s d.value * signed t d'.value =
      signed (s * t) (((d.mantissa * d'.mantissa : ℕ) : ℚ) * 2 ^ (d.exponent + d'.exponent)) := by
    rw [← signed_mul, zpow_add₀ (by norm_num)]
    congr 1
    unfold Decimal.Dyadic.value
    push_cast
    ring
  rw [hvalue]
  exact roundsTo_roundWithAccuracy hexact hbits (s * t)

/-- A product is the exact product, rounded. -/
theorem roundsTo_mul (hx : x.isFinite = true) (hy : y.isFinite = true) :
    RoundsTo (x * y) (value x * value y) := by
  show RoundsTo (packed (UnpackedFloat.mul Format.binary64 x.toModel.unpack y.toModel.unpack)) _
  rcases finite_cases hx with ⟨s, hs⟩ | ⟨d, hd, s, hs⟩ <;>
    rcases finite_cases hy with ⟨t, ht⟩ | ⟨d', hd', t, ht⟩
  · rw [value_of_zero hs, zero_mul, hs, ht]
    exact roundsTo_zero _ rounded_zero
  · rw [value_of_zero hs, zero_mul, hs, ht]
    exact roundsTo_zero _ rounded_zero
  · rw [value_of_zero ht, mul_zero, hs, ht]
    exact roundsTo_zero _ rounded_zero
  · rw [value_of_finite hs, value_of_finite ht, hs, ht]
    exact roundsTo_mul_finite hd hd' s t

theorem roundsTo_div_finite {d d' : Decimal.Dyadic} (hd : d.Canonical) (hd' : d'.Canonical)
    (s t : Sign) :
    RoundsTo (packed (UnpackedFloat.div Format.binary64
      (.finite s d.mantissa d.exponent hd.pos) (.finite t d'.mantissa d'.exponent hd'.pos)))
      (signed s d.value / signed t d'.value) := by
  obtain ⟨c, T, a, y, hcore, hy, hbits, hvalue⟩ :=
    exists_divCore hd.pos hd'.pos d.exponent d'.exponent
  have hsigned : signed s d.value / signed t d'.value = signed (s / t) (y * 2 ^ T) := by
    rw [← signed_div, ← hvalue]
    rfl
  rw [hsigned]
  show RoundsTo (packed (roundWithAccuracy Format.binary64 (s / t)
    (divCore Format.binary64 d.mantissa d.exponent d'.mantissa d'.exponent).1
    (divCore Format.binary64 d.mantissa d.exponent d'.mantissa d'.exponent).2.1
    (divCore Format.binary64 d.mantissa d.exponent d'.mantissa d'.exponent).2.2)) _
  rw [hcore]
  exact roundsTo_roundWithAccuracy hy hbits (s / t)

/-- A quotient is the exact quotient, rounded, unless the divisor is a zero. -/
theorem roundsTo_div (hx : x.isFinite = true) (hy : y.isFinite = true) (hne : value y ≠ 0) :
    RoundsTo (x / y) (value x / value y) := by
  show RoundsTo (packed (UnpackedFloat.div Format.binary64 x.toModel.unpack y.toModel.unpack)) _
  rcases finite_cases hy with ⟨t, ht⟩ | ⟨d', hd', t, ht⟩
  · exact absurd (value_of_zero ht) hne
  rcases finite_cases hx with ⟨s, hs⟩ | ⟨d, hd, s, hs⟩
  · rw [value_of_zero hs, zero_div, hs, ht]
    exact roundsTo_zero _ rounded_zero
  · rw [value_of_finite hs, value_of_finite ht, hs, ht]
    exact roundsTo_div_finite hd hd' s t

/-! ### Operands that are not finite -/

theorem isFinite_of_packed {u : UnpackedFloat} (h : (packed u).isFinite = true) :
    u.isFinite = true := by
  cases u with
  | infinity s => cases s <;> cases h
  | notANumber => cases h
  | zero s => rfl
  | finite s m e hm => rfl

/-- A finite sum has finite terms. -/
theorem isFinite_of_add (h : (x + y).isFinite = true) : x.isFinite = true ∧ y.isFinite = true := by
  have hsum : (UnpackedFloat.add Format.binary64 x.toModel.unpack y.toModel.unpack).isFinite =
      true := isFinite_of_packed h
  show x.toModel.unpack.isFinite = true ∧ y.toModel.unpack.isFinite = true
  generalize x.toModel.unpack = u at hsum ⊢
  generalize y.toModel.unpack = v at hsum ⊢
  cases u with
  | infinity s =>
      cases v with
      | infinity t => cases s <;> cases t <;> cases hsum
      | _ => cases hsum
  | notANumber => cases hsum
  | zero s =>
      cases v with
      | infinity t => cases hsum
      | notANumber => cases hsum
      | _ => exact ⟨rfl, rfl⟩
  | finite s m e hm =>
      cases v with
      | infinity t => cases hsum
      | notANumber => cases hsum
      | _ => exact ⟨rfl, rfl⟩

/-- A finite product has finite factors. -/
theorem isFinite_of_mul (h : (x * y).isFinite = true) : x.isFinite = true ∧ y.isFinite = true := by
  have hproduct : (UnpackedFloat.mul Format.binary64 x.toModel.unpack
      y.toModel.unpack).isFinite = true := isFinite_of_packed h
  show x.toModel.unpack.isFinite = true ∧ y.toModel.unpack.isFinite = true
  generalize x.toModel.unpack = u at hproduct ⊢
  generalize y.toModel.unpack = v at hproduct ⊢
  cases u with
  | infinity s => cases v <;> cases hproduct
  | notANumber => cases hproduct
  | zero s =>
      cases v with
      | infinity t => cases hproduct
      | notANumber => cases hproduct
      | _ => exact ⟨rfl, rfl⟩
  | finite s m e hm =>
      cases v with
      | infinity t => cases hproduct
      | notANumber => cases hproduct
      | _ => exact ⟨rfl, rfl⟩

end MarketSignals.Rounding
