import MarketSignals.Proofs.Float.Infinite

/-!
# Floats and whole numbers

A count is converted to the nearest float, which is the count itself up to fifty-three bits.
A float is converted to a count by cutting off what is behind the point; what is below zero
is held at zero and what needs more than 64 bits at the greatest count.

## Main results

* `rounded_natCast_mul` — whole numbers of last places round to themselves.
* `exists_count`, `least_le_sub`, `least_le_value` — floats in units of the least one.
* `roundsTo_ofNat`, `value_ofNat` — counts as floats.
* `RoundsTo.toNat_toUInt64` — floats as counts.
-/

namespace MarketSignals.Rounding

open Decimal (two_zpow_pos Represents value_wholeNumber toFloat_eq)
open Float.Model (Format UnpackedFloat)
open Float.Model.UnpackedFloat (Sign ExtendedMantissa roundToInt decreaseExponent shiftToExponent)

variable {x y : Float} {q : ℚ} {n : ℕ}

/-! ## Numbers that round to themselves -/

/-- A whole number of fifty-three bits, times a power of two that a float can have, rounds
to itself. -/
theorem rounded_natCast_mul {t : ℤ} (hn : n < 2 ^ 53) (ht : -1074 ≤ t) :
    rounded (n * 2 ^ t) = n * 2 ^ t := by
  rcases Nat.eq_zero_or_pos n with rfl | hpos
  · rw [Nat.cast_zero, zero_mul, rounded_zero]
  have hq : (0 : ℚ) < n * 2 ^ t := mul_pos (by exact_mod_cast hpos) (two_zpow_pos t)
  have hplace : lastPlace (n * 2 ^ t) ≤ t := by
    have hlt : (n : ℚ) * 2 ^ t < 2 ^ ((53 : ℕ) + t) := by
      rw [zpow_add₀ (by norm_num), zpow_natCast]
      exact mul_lt_mul_of_pos_right (by exact_mod_cast hn) (two_zpow_pos t)
    have hlog := (Int.lt_zpow_iff_log_lt (b := 2) (by decide) hq).mp (by exact_mod_cast hlt)
    unfold lastPlace
    omega
  -- counted in its own last place the number is whole as well
  rw [rounded_of_nonneg hq.le, roundedMagnitude]
  generalize lastPlace (n * 2 ^ t) = l at hplace
  obtain ⟨k, rfl⟩ : ∃ k : ℕ, t = k + l := ⟨(t - l).toNat, by omega⟩
  have hcount : (n : ℚ) * 2 ^ ((k : ℤ) + l) / 2 ^ l = (n * 2 ^ k : ℕ) := by
    rw [zpow_add₀ (by norm_num), ← mul_assoc, mul_div_cancel_right₀ _ (two_zpow_pos l).ne',
      zpow_natCast]
    push_cast
    rfl
  rw [hcount, nearestWhole_natCast, zpow_add₀ (by norm_num), zpow_natCast]
  push_cast
  rw [mul_assoc]

theorem rounded_natCast (hn : n < 2 ^ 53) : rounded n = n := by
  simpa using rounded_natCast_mul (t := 0) hn (by decide)

theorem rounded_two_zpow {t : ℤ} (ht : -1074 ≤ t) : rounded (2 ^ t) = 2 ^ t := by
  simpa using rounded_natCast_mul (n := 1) (by decide) ht

/-! ## Floats in units of the least one -/

theorem exists_count_canonical {d : Decimal.Dyadic} (hd : d.Canonical) :
    ∃ k : ℕ, d.value = k * 2 ^ (-1074 : ℤ) := by
  have hleast := hd.least
  obtain ⟨j, hj⟩ : ∃ j : ℕ, d.exponent = j + -1074 := ⟨(d.exponent + 1074).toNat, by omega⟩
  refine ⟨d.mantissa * 2 ^ j, ?_⟩
  rw [Decimal.Dyadic.value, hj, zpow_add₀ (by norm_num), zpow_natCast]
  generalize (2 : ℚ) ^ (-1074 : ℤ) = unit
  push_cast
  ring

/-- Every float is a whole number of the least one. -/
theorem exists_count (hx : x.isFinite = true) : ∃ k : ℤ, value x = k * 2 ^ (-1074 : ℤ) := by
  rcases finite_cases hx with ⟨s, hs⟩ | ⟨d, hd, s, hs⟩
  · exact ⟨0, by rw [value_of_zero hs, Int.cast_zero, zero_mul]⟩
  · obtain ⟨k, hk⟩ := exists_count_canonical hd
    rw [value_of_finite hs, hk]
    cases s
    · exact ⟨-k, by rw [signed, Int.cast_neg, Int.cast_natCast, neg_mul]⟩
    · exact ⟨k, by rw [signed, Int.cast_natCast]⟩

/-- So two floats are apart by the least one. -/
theorem least_le_sub (hx : x.isFinite = true) (hy : y.isFinite = true) (h : value x < value y) :
    2 ^ (-1074 : ℤ) ≤ value y - value x := by
  obtain ⟨j, hj⟩ := exists_count hx
  obtain ⟨k, hk⟩ := exists_count hy
  have hunit : (0 : ℚ) < 2 ^ (-1074 : ℤ) := two_zpow_pos _
  rw [hj, hk] at h ⊢
  generalize (2 : ℚ) ^ (-1074 : ℤ) = unit at h hunit ⊢
  have hlt : j < k := by exact_mod_cast lt_of_mul_lt_mul_right h hunit.le
  have hone : (1 : ℚ) ≤ k - j := by exact_mod_cast Int.le_sub_left_of_add_le hlt
  rw [← sub_mul]
  exact le_mul_of_one_le_left hunit.le hone

theorem least_le_value (hx : x.isFinite = true) (hpos : 0 < value x) :
    2 ^ (-1074 : ℤ) ≤ value x := by
  have hstep := least_le_sub (x := 0) rfl hx (by rwa [value_zero])
  rwa [value_zero, sub_zero] at hstep

/-! ## Counts as floats -/

/-- A count is converted to the float that is nearest to it. -/
theorem roundsTo_ofNat (n : ℕ) : RoundsTo (Float.ofNat n) n := by
  rcases Nat.eq_zero_or_pos n with rfl | hpos
  · exact roundsTo_zero .positive (by simp)
  show RoundsTo (Float.ofScientific n false 0) n
  unfold Float.ofScientific
  split
  next hfast =>
    have hone : value Float.exactlyRepresentablePowersOfTen[0] = 1 := value_one
    have hfloat := toFloat_eq hpos hfast.1
    have hfinite : n.toUInt64.toFloat.isFinite = true := by
      rw [hfloat]
      exact Decimal.isFinite_float _ _
    have hwhole : value n.toUInt64.toFloat = n := by
      rw [hfloat, value_float, value_wholeNumber hfast.1]
      rfl
    have hproduct := roundsTo_mul (y := Float.exactlyRepresentablePowersOfTen[0]) hfinite rfl
    rw [hone, hwhole, mul_one] at hproduct
    exact hproduct
  next hslow =>
    have hexact : Represents (ExtendedMantissa.ofMantissaAndAccuracy (n <<< 53 * 1) .exact)
        ((n <<< 53 * 1 : ℕ) : ℚ) := rfl
    have hbits : 52 ≤ (n <<< 53 * 1).log2 := by
      rw [Nat.mul_one]
      exact le_log2_shiftLeft hpos (by omega)
    have hvalue : ((n <<< 53 * 1 : ℕ) : ℚ) * 2 ^ (-53 + 0 : ℤ) = n := by
      rw [Nat.mul_one, Nat.shiftLeft_eq, add_zero, zpow_neg]
      push_cast
      field_simp
    have hround := roundsTo_roundWithAccuracy hexact (.inl hbits) .positive (e := -53 + 0)
    rw [hvalue] at hround
    have hlog : (0 : ℤ) ≤ (n.log2 : ℤ) := Int.natCast_nonneg _
    have hpower : (0 : ℤ) ≤ 2 ^ Format.binary64.exponentBits := by positivity
    show RoundsTo (packed (UnpackedFloat.ofScientific Format.binary64 n 0)) n
    unfold UnpackedFloat.ofScientific
    rw [dif_neg hpos.ne', if_neg (by omega), if_neg (by omega), if_pos le_rfl]
    exact hround

theorem two_pow_lt_overflowPoint {k : ℕ} (hk : k ≤ 1023) : (2 : ℚ) ^ k < overflowPoint := by
  have hgreatest : (2 : ℚ) ^ 1023 = 2 ^ 52 * 2 ^ (971 : ℤ) := by
    rw [show (971 : ℤ) = (971 : ℕ) from rfl, zpow_natCast, ← pow_add]
  calc (2 : ℚ) ^ k ≤ 2 ^ 1023 := pow_le_pow_right₀ (by norm_num) hk
    _ = 2 ^ 52 * 2 ^ (971 : ℤ) := hgreatest
    _ < overflowPoint := by
        rw [overflowPoint_eq]
        exact mul_lt_mul_of_pos_right (by norm_num) (two_zpow_pos _)

/-- A count that fits in 64 bits has a float. -/
theorem ofNat_finite (hn : n < UInt64.size) : (Float.ofNat n).isFinite = true := by
  rw [(roundsTo_ofNat n).finite_iff, Nat.abs_cast]
  have hlt : (n : ℚ) < 2 ^ 64 := by exact_mod_cast hn
  exact hlt.trans (two_pow_lt_overflowPoint (by decide))

/-- It is one at least unless there is nothing to count. -/
theorem one_le_value_ofNat (hpos : 0 < n) (hn : n < UInt64.size) : 1 ≤ value (Float.ofNat n) := by
  have hone : rounded 1 = 1 := by simpa using rounded_natCast (n := 1) (by decide)
  rw [(roundsTo_ofNat n).value_eq (ofNat_finite hn), ← hone]
  exact rounded_mono (by exact_mod_cast hpos)

/-- A count of fifty-three bits is exact as a float. -/
theorem value_ofNat (hn : n < 2 ^ 53) :
    (Float.ofNat n).isFinite = true ∧ value (Float.ofNat n) = n := by
  have hfinite := ofNat_finite (hn.trans (by decide))
  exact ⟨hfinite, by rw [(roundsTo_ofNat n).value_eq hfinite, rounded_natCast hn]⟩

/-! ## Floats as counts -/

/-- A magnitude is cut to the whole number below it. -/
theorem roundToInt_eq (s : Sign) (m : ℕ) (e : ℤ) :
    roundToInt s m e = s.apply ⌊(m : ℚ) * 2 ^ e⌋₊ := by
  obtain ⟨j, hj⟩ : ∃ j : ℕ, (e - 0).toNat = j := ⟨_, rfl⟩
  obtain ⟨k, hk⟩ : ∃ k : ℕ, (0 - (e - j)).toNat = k := ⟨_, rfl⟩
  have hexact : Represents (ExtendedMantissa.ofMantissaAndAccuracy (m <<< j) .exact)
      ((m <<< j : ℕ) : ℚ) := rfl
  have hvalue : (m : ℚ) * 2 ^ e = ((m <<< j : ℕ) : ℚ) / 2 ^ k := by
    rw [show e = (j : ℤ) - k by omega, zpow_sub₀ (by norm_num), zpow_natCast, zpow_natCast,
      Nat.shiftLeft_eq, ← mul_div_assoc]
    push_cast
    rfl
  have hbounds := (hexact.shiftRight k).bounds
  rw [← hvalue] at hbounds
  have hfloor : ⌊(m : ℚ) * 2 ^ e⌋₊ =
      (ExtendedMantissa.ofMantissaAndAccuracy (m <<< j) .exact >>> k).mantissa :=
    (Nat.floor_eq_iff ((Nat.cast_nonneg _).trans hbounds.1)).mpr hbounds
  rw [hfloor]
  unfold roundToInt decreaseExponent shiftToExponent
  simp only [hj, hk]

theorem toNat_ofNatClamp (n : ℕ) : (UInt64.ofNatClamp n).toNat = min n (UInt64.size - 1) := by
  unfold UInt64.ofNatClamp
  split
  next h =>
    rw [UInt64.toNat_ofNatLT]
    omega
  next h =>
    rw [UInt64.toNat_ofNatLT]
    omega

/-- A finite float is cut to the whole number below what it stands for, as far as that is not
negative and fits in 64 bits. -/
theorem toNat_toUInt64 (hx : x.isFinite = true) :
    x.toUInt64.toNat = min ⌊value x⌋₊ (UInt64.size - 1) := by
  show (UInt64.ofNatClamp (x.toModel.unpack.toInt 0 (UInt64.size - 1)).toNat).toNat = _
  rw [toNat_ofNatClamp]
  congr 1
  rcases finite_cases hx with ⟨s, hs⟩ | ⟨d, hd, s, hs⟩
  · rw [value_of_zero hs, hs, Nat.floor_zero]
    rfl
  · rw [value_of_finite hs, hs]
    show (roundToInt s d.mantissa d.exponent).toNat = _
    rw [roundToInt_eq]
    cases s
    · rw [signed, Nat.floor_of_nonpos (neg_nonpos.mpr (value_canonical_pos hd).le)]
      exact Int.toNat_eq_zero.mpr (Int.neg_nonpos_of_nonneg (Int.natCast_nonneg _))
    · rfl

theorem toNat_toUInt64_infinity : infinity.toUInt64.toNat = UInt64.size - 1 := rfl

theorem toNat_toUInt64_neg_infinity : (-infinity).toUInt64.toNat = 0 := rfl

/-- What is below one is cut to zero. -/
theorem toNat_toUInt64_of_lt_one (h : x < 1) : x.toUInt64.toNat = 0 := by
  rcases finite_or_infinite (isNaN_eq_false_of_lt h) with hx | rfl | rfl
  · rw [lt_iff_value hx rfl, value_one] at h
    rw [toNat_toUInt64 hx, Nat.floor_eq_zero.mpr h, Nat.zero_min]
  · exact absurd h (by decide)
  · exact toNat_toUInt64_neg_infinity

/-- Infinities are cut to what the numbers out of range would be. -/
theorem RoundsTo.toNat_toUInt64 (h : RoundsTo x q) :
    x.toUInt64.toNat = min ⌊rounded q⌋₊ (UInt64.size - 1) := by
  rcases h.cases with ⟨hx, -, hvalue⟩ | ⟨rfl, hq⟩ | ⟨rfl, hq⟩
  · rw [Rounding.toNat_toUInt64 hx, hvalue]
  · have hlarge : (2 : ℚ) ^ 1024 ≤ rounded q := by
      rw [← rounded_overflowPoint]
      exact rounded_mono hq
    have hsize : ((UInt64.size - 1 : ℕ) : ℚ) ≤ rounded q := by
      calc ((UInt64.size - 1 : ℕ) : ℚ) ≤ 2 ^ 64 := by norm_num [UInt64.size]
        _ ≤ 2 ^ 1024 := pow_le_pow_right₀ (by norm_num) (by norm_num)
        _ ≤ rounded q := hlarge
    rw [toNat_toUInt64_infinity, Nat.min_eq_right (Nat.le_floor hsize)]
  · have hneg : rounded q ≤ 0 := by
      rw [← rounded_zero]
      exact rounded_mono (hq.trans (neg_nonpos.mpr overflowPoint_pos.le))
    rw [toNat_toUInt64_neg_infinity, Nat.floor_of_nonpos hneg, Nat.zero_min]

end MarketSignals.Rounding
