import MarketSignals.Proofs.Float.Nearest

/-!
# Floats as numbers

A finite float stands for a number: zero, or a magnitude with a sign.  The order of finite
floats is the order of what they stand for, so a comparison of two floats says what it says
of the numbers.

## Main definitions

* `value` — the number that a float stands for.

## Main results

* `finite_cases` — a finite float is unpacked to a zero, or to a sign and a magnitude.
* `lt_iff_value`, `le_iff_value`, `beq_iff_value` — floats compare as numbers do.
* `eq_of_value_eq` — positive floats that stand for one number are one float.
* `abs_value_lt` — no float is out of range.
* `value_le_of_lt_one` — the float next to one is the greatest one below.
-/

namespace MarketSignals.Rounding

open Decimal (signOf two_zpow_pos)
open Float.Model (UnpackedFloat)
open Float.Model.UnpackedFloat (Sign)

/-! ## Signs -/

/-- A magnitude with a sign. -/
def signed (s : Sign) (q : ℚ) : ℚ :=
  match s with
  | .negative => -q
  | .positive => q

theorem signed_mul (s t : Sign) (q r : ℚ) : signed (s * t) (q * r) = signed s q * signed t r := by
  cases s <;> cases t
  · exact (neg_mul_neg q r).symm
  · exact (neg_mul q r).symm
  · exact (mul_neg q r).symm
  · rfl

theorem signed_div (s t : Sign) (q r : ℚ) : signed (s / t) (q / r) = signed s q / signed t r := by
  cases s <;> cases t
  · exact (neg_div_neg_eq q r).symm
  · exact (neg_div r q).symm
  · exact (div_neg q).symm
  · rfl

theorem signed_signed (s : Sign) (q : ℚ) : signed s (signed s q) = q := by
  cases s
  · exact neg_neg q
  · rfl

theorem abs_signed (s : Sign) (q : ℚ) : |signed s q| = |q| := by
  cases s
  · exact abs_neg q
  · rfl

theorem rounded_signed (s : Sign) (q : ℚ) : rounded (signed s q) = signed s (rounded q) := by
  cases s
  · exact rounded_neg q
  · rfl

theorem exists_signOf (s : Sign) : ∃ negative, s = signOf negative := by
  cases s
  · exact ⟨true, rfl⟩
  · exact ⟨false, rfl⟩

/-! ## Values -/

/-- The number that an unpacked float stands for.  One that is not finite stands for none,
and is given zero. -/
def unpackedValue : UnpackedFloat → ℚ
  | .finite s m e _ => signed s (m * 2 ^ e)
  | _ => 0

/-- The number that a float stands for. -/
def value (x : Float) : ℚ := unpackedValue x.toModel.unpack

/-- The float that an unpacked float is stored as. -/
def packed (u : UnpackedFloat) : Float := .ofModel (.pack u)

/-- A finite float is unpacked to a zero, or to a sign and a magnitude. -/
theorem finite_cases {x : Float} (hx : x.isFinite = true) :
    (∃ s, x.toModel.unpack = .zero s) ∨
      ∃ (d : Decimal.Dyadic) (hd : d.Canonical) (s : Sign),
        x.toModel.unpack = .finite s d.mantissa d.exponent hd.pos := by
  rcases Decimal.of_eq_of_isFinite hx with ⟨negative, h⟩ | ⟨negative, d, h⟩
  · left
    rw [Decimal.eq_zero_of_zero h]
    cases negative
    · exact ⟨.positive, rfl⟩
    · exact ⟨.negative, rfl⟩
  · right
    obtain ⟨hd, rfl⟩ := Decimal.eq_float_of_finite h
    exact ⟨d, hd, signOf negative, Decimal.unpack_float hd negative⟩

theorem value_of_zero {x : Float} {s : Sign} (h : x.toModel.unpack = .zero s) : value x = 0 := by
  rw [value, h]
  rfl

theorem value_of_finite {x : Float} {s : Sign} {d : Decimal.Dyadic} {hpos : 0 < d.mantissa}
    (h : x.toModel.unpack = .finite s d.mantissa d.exponent hpos) :
    value x = signed s d.value := by
  rw [value, h]
  rfl

theorem value_float {d : Decimal.Dyadic} (hd : d.Canonical) (negative : Bool) :
    value (d.float hd negative) = signed (signOf negative) d.value := by
  rw [value, Decimal.unpack_float]
  rfl

@[simp] theorem value_zero : value 0 = 0 := value_of_zero (s := .positive) rfl

@[simp] theorem value_one : value 1 = 1 := by
  have h : (1 : Float).toModel.unpack = .finite .positive (2 ^ 52) (-52) (by decide) := rfl
  rw [value, h]
  show ((2 ^ 52 : ℕ) : ℚ) * 2 ^ (-52 : ℤ) = 1
  norm_num

/-! ## Order -/

theorem value_canonical_pos {d : Decimal.Dyadic} (hd : d.Canonical) : 0 < d.value :=
  mul_pos (by exact_mod_cast hd.pos) (two_zpow_pos _)

/-- A magnitude with a greater exponent is greater: its mantissa is normal. -/
theorem value_lt_of_exponent_lt {d d' : Decimal.Dyadic} (hd : d.Canonical) (hd' : d'.Canonical)
    (h : d.exponent < d'.exponent) : d.value < d'.value := by
  have hleast := hd.least
  have hnormal : (2 : ℚ) ^ 52 ≤ d'.mantissa := by
    exact_mod_cast hd'.normal.resolve_right (by omega)
  have hlt : (d.mantissa : ℚ) < 2 ^ 53 := by exact_mod_cast hd.lt
  calc d.value < 2 ^ 53 * 2 ^ d.exponent := mul_lt_mul_of_pos_right hlt (two_zpow_pos _)
    _ = 2 ^ 52 * 2 ^ (d.exponent + 1) := by
        rw [zpow_add_one₀ (by norm_num)]
        ring
    _ ≤ 2 ^ 52 * 2 ^ d'.exponent :=
        mul_le_mul_of_nonneg_left (zpow_le_zpow_right₀ (by norm_num) h) (by norm_num)
    _ ≤ d'.value := mul_le_mul_of_nonneg_right hnormal (two_zpow_pos _).le

/-- Magnitudes compare by their exponents, and by their mantissas where these agree. -/
theorem compare_value {d d' : Decimal.Dyadic} (hd : d.Canonical) (hd' : d'.Canonical) :
    (compare d.exponent d'.exponent).then (compare d.mantissa d'.mantissa) =
      compare d.value d'.value := by
  rcases lt_trichotomy d.exponent d'.exponent with h | h | h
  · rw [compare_lt_iff_lt.mpr h, compare_lt_iff_lt.mpr (value_lt_of_exponent_lt hd hd' h)]
    rfl
  · have hpos : (0 : ℚ) < 2 ^ d'.exponent := two_zpow_pos _
    unfold Decimal.Dyadic.value
    rw [compare_eq_iff_eq.mpr h, h, Ordering.then]
    rcases lt_trichotomy d.mantissa d'.mantissa with hm | hm | hm
    · rw [compare_lt_iff_lt.mpr hm,
        compare_lt_iff_lt.mpr (mul_lt_mul_of_pos_right (Nat.cast_lt.mpr hm) hpos)]
    · rw [hm, compare_eq_iff_eq.mpr rfl, compare_eq_iff_eq.mpr rfl]
    · rw [compare_gt_iff_gt.mpr hm,
        compare_gt_iff_gt.mpr (mul_lt_mul_of_pos_right (Nat.cast_lt.mpr hm) hpos)]
  · rw [compare_gt_iff_gt.mpr h, compare_gt_iff_gt.mpr (value_lt_of_exponent_lt hd' hd h)]
    rfl

theorem compare_neg_neg (q r : ℚ) : compare (-q) (-r) = (compare q r).swap := by
  rcases lt_trichotomy q r with h | rfl | h
  · rw [compare_lt_iff_lt.mpr h, compare_gt_iff_gt.mpr (neg_lt_neg h)]
    rfl
  · rw [compare_eq_iff_eq.mpr rfl, compare_eq_iff_eq.mpr rfl]
    rfl
  · rw [compare_gt_iff_gt.mpr h, compare_lt_iff_lt.mpr (neg_lt_neg h)]
    rfl

/-- Finite floats compare as what they stand for. -/
theorem compare_eq {x y : Float} (hx : x.isFinite = true) (hy : y.isFinite = true) :
    x.toModel.unpack.compare y.toModel.unpack = some (compare (value x) (value y)) := by
  rcases finite_cases hx with ⟨s, hsx⟩ | ⟨d, hd, s, hsx⟩ <;>
    rcases finite_cases hy with ⟨t, hty⟩ | ⟨d', hd', t, hty⟩
  · rw [value_of_zero hsx, value_of_zero hty, hsx, hty, compare_eq_iff_eq.mpr rfl]
    rfl
  · have hpos := value_canonical_pos hd'
    rw [value_of_zero hsx, value_of_finite hty, hsx, hty]
    cases t
    · rw [signed, compare_gt_iff_gt.mpr (neg_lt_zero.mpr hpos)]
      rfl
    · rw [signed, compare_lt_iff_lt.mpr hpos]
      rfl
  · have hpos := value_canonical_pos hd
    rw [value_of_finite hsx, value_of_zero hty, hsx, hty]
    cases s
    · rw [signed, compare_lt_iff_lt.mpr (neg_lt_zero.mpr hpos)]
      rfl
    · rw [signed, compare_gt_iff_gt.mpr hpos]
      rfl
  · have hpos := value_canonical_pos hd
    have hpos' := value_canonical_pos hd'
    rw [value_of_finite hsx, value_of_finite hty, hsx, hty]
    cases s <;> cases t
    · rw [signed, signed, compare_neg_neg, ← compare_value hd hd']
      rfl
    · rw [signed, signed, compare_lt_iff_lt.mpr (by linarith)]
      rfl
    · rw [signed, signed, compare_gt_iff_gt.mpr (by linarith)]
      rfl
    · rw [signed, signed, ← compare_value hd hd']
      rfl

theorem lt_iff_value {x y : Float} (hx : x.isFinite = true) (hy : y.isFinite = true) :
    x < y ↔ value x < value y := by
  have hlt : x < y ↔ x.toModel.unpack.compare y.toModel.unpack = some .lt :=
    ⟨fun h => eq_of_beq (of_decide_eq_true h), fun h => decide_eq_true (beq_of_eq h)⟩
  rw [hlt, compare_eq hx hy, Option.some.injEq, compare_lt_iff_lt]

theorem le_iff_value {x y : Float} (hx : x.isFinite = true) (hy : y.isFinite = true) :
    x ≤ y ↔ value x ≤ value y := by
  have hle : x ≤ y ↔ (x.toModel.unpack.compare y.toModel.unpack).any (·.isLE) = true :=
    ⟨fun h => of_decide_eq_true h, fun h => decide_eq_true h⟩
  rw [hle, compare_eq hx hy, Option.any_some, Ordering.isLE_iff_ne_gt,
    not_congr compare_gt_iff_gt, not_lt]

theorem not_lt_zero_iff {x : Float} (hx : x.isFinite = true) : ¬x < 0 ↔ 0 ≤ value x := by
  rw [lt_iff_value hx rfl, value_zero, not_lt]

theorem not_le_zero_iff {x : Float} (hx : x.isFinite = true) : ¬x ≤ 0 ↔ 0 < value x := by
  rw [le_iff_value hx rfl, value_zero, not_le]

theorem beq_iff_value {x y : Float} (hx : x.isFinite = true) (hy : y.isFinite = true) :
    (x == y) = true ↔ value x = value y := by
  have hbeq : (x == y) = (x.toModel.unpack.compare y.toModel.unpack == some .eq) := rfl
  rw [hbeq, beq_iff_eq, compare_eq hx hy, Option.some.injEq, compare_eq_iff_eq]

/-- Magnitudes are told apart by what they stand for. -/
theorem eq_of_canonical_value_eq {d d' : Decimal.Dyadic} (hd : d.Canonical) (hd' : d'.Canonical)
    (h : d.value = d'.value) : d = d' := by
  have horder := compare_value hd hd'
  rw [h, compare_eq_iff_eq.mpr rfl, Ordering.then_eq_eq] at horder
  obtain ⟨hexponent, hmantissa⟩ := horder
  rw [compare_eq_iff_eq] at hexponent hmantissa
  cases d
  cases d'
  cases hexponent
  cases hmantissa
  rfl

/-- A float that stands for a positive number is its magnitude. -/
theorem exists_float_of_pos {x : Float} (hx : x.isFinite = true) (hpos : 0 < value x) :
    ∃ (d : Decimal.Dyadic) (hd : d.Canonical), x = d.float hd false := by
  rcases Decimal.of_eq_of_isFinite hx with ⟨negative, hzero⟩ | ⟨negative, d, hvalue⟩
  · rw [Decimal.eq_zero_of_zero hzero] at hpos
    cases negative
    · exact absurd value_zero hpos.ne'
    · exact absurd (value_of_zero (s := .negative) rfl) hpos.ne'
  · obtain ⟨hd, rfl⟩ := Decimal.eq_float_of_finite hvalue
    cases negative
    · exact ⟨d, hd, rfl⟩
    · rw [value_float] at hpos
      exact absurd hpos (not_lt.mpr (neg_nonpos.mpr (value_canonical_pos hd).le))

theorem finite_cases_of_pos {x : Float} (hx : x.isFinite = true) (hpos : 0 < value x) :
    ∃ (d : Decimal.Dyadic) (hd : d.Canonical),
      x.toModel.unpack = .finite .positive d.mantissa d.exponent hd.pos := by
  obtain ⟨d, hd, rfl⟩ := exists_float_of_pos hx hpos
  exact ⟨d, hd, Decimal.unpack_float hd false⟩

/-- Positive floats are told apart by what they stand for. -/
theorem eq_of_value_eq {x y : Float} (hx : x.isFinite = true) (hy : y.isFinite = true)
    (hpos : 0 < value x) (h : value x = value y) : x = y := by
  obtain ⟨d, hd, rfl⟩ := exists_float_of_pos hx hpos
  obtain ⟨d', hd', rfl⟩ := exists_float_of_pos hy (h ▸ hpos)
  rw [value_float, value_float] at h
  cases eq_of_canonical_value_eq hd hd' h
  rfl

/-- Infinity is above every finite float. -/
theorem le_infinity {x y : Float} (hx : x.isFinite = true)
    (hy : y.toModel.unpack = .infinity .positive) : x ≤ y := by
  refine decide_eq_true ?_
  show (x.toModel.unpack.compare y.toModel.unpack).any (·.isLE) = true
  rw [hy]
  rcases finite_cases hx with ⟨s, hs⟩ | ⟨d, hd, s, hs⟩
  · rw [hs]
    rfl
  · rw [hs]
    cases s <;> rfl

/-! ## Bounds -/

/-- A float rounds to itself. -/
theorem rounded_value_eq {x : Float} (hx : x.isFinite = true) : rounded (value x) = value x := by
  rcases finite_cases hx with ⟨s, hs⟩ | ⟨d, hd, s, hs⟩
  · rw [value_of_zero hs, rounded_zero]
  · rw [value_of_finite hs, rounded_signed, rounded_value hd]

theorem mantissa_le {d : Decimal.Dyadic} (hd : d.Canonical) : (d.mantissa : ℚ) ≤ 2 ^ 53 - 1 := by
  have hlt : (d.mantissa : ℚ) + 1 ≤ 2 ^ 53 := by exact_mod_cast hd.lt
  linarith

/-- What the greatest float stands for. -/
def greatestValue : ℚ := (2 ^ 53 - 1) * 2 ^ (971 : ℤ)

/-- No magnitude exceeds that of the greatest float. -/
theorem value_canonical_le {d : Decimal.Dyadic} (hd : d.Canonical) : d.value ≤ greatestValue :=
  mul_le_mul (mantissa_le hd) (zpow_le_zpow_right₀ (by norm_num) hd.greatest)
    (two_zpow_pos _).le (by norm_num)

theorem abs_value_le {x : Float} (hx : x.isFinite = true) : |value x| ≤ greatestValue := by
  rcases finite_cases hx with ⟨s, hs⟩ | ⟨d, hd, s, hs⟩
  · rw [value_of_zero hs, abs_zero]
    exact mul_nonneg (by norm_num) (two_zpow_pos _).le
  · rw [value_of_finite hs, abs_signed, abs_of_pos (value_canonical_pos hd)]
    exact value_canonical_le hd

theorem greatestValue_lt : greatestValue < overflowPoint := by
  rw [overflowPoint_eq, greatestValue]
  exact mul_lt_mul_of_pos_right (by norm_num) (two_zpow_pos _)

/-- No float is out of range. -/
theorem abs_value_lt {x : Float} (hx : x.isFinite = true) : |value x| < overflowPoint :=
  (abs_value_le hx).trans_lt greatestValue_lt

/-- The float next to one is the greatest one below. -/
theorem value_le_of_lt_one {x : Float} (hx : x.isFinite = true) (h : value x < 1) :
    value x ≤ 1 - 2 ^ (-53 : ℤ) := by
  have hzero : (0 : ℚ) ≤ 1 - 2 ^ (-53 : ℤ) := by norm_num
  rcases finite_cases hx with ⟨s, hs⟩ | ⟨d, hd, s, hs⟩
  · rw [value_of_zero hs]
    exact hzero
  rw [value_of_finite hs] at h ⊢
  have hpos := value_canonical_pos hd
  cases s
  · exact (neg_nonpos.mpr hpos.le).trans hzero
  -- a float with a greater exponent is one or more
  have hexponent : d.exponent ≤ -53 := by
    by_contra hlarge
    have hnormal : (2 : ℚ) ^ 52 ≤ d.mantissa := by
      exact_mod_cast hd.normal.resolve_right (by omega)
    have hone : (1 : ℚ) ≤ d.value := by
      calc (1 : ℚ) = 2 ^ 52 * 2 ^ (-52 : ℤ) := by norm_num
        _ ≤ d.value := mul_le_mul hnormal (zpow_le_zpow_right₀ (by norm_num) (by omega))
          (two_zpow_pos _).le (Nat.cast_nonneg _)
    exact absurd h (not_lt.mpr hone)
  calc d.value ≤ (2 ^ 53 - 1) * 2 ^ (-53 : ℤ) :=
        mul_le_mul (mantissa_le hd) (zpow_le_zpow_right₀ (by norm_num) hexponent)
          (two_zpow_pos _).le (by norm_num)
    _ = 1 - 2 ^ (-53 : ℤ) := by norm_num

end MarketSignals.Rounding
