import MarketSignals.Proofs.Decimal.Rounding

/-!
# Decimals as floats

A decimal is converted in one of two ways.  Few digits with a small power of ten are
multiplied or divided as floats, which is right because both are exact; anything else is
multiplied or divided as whole numbers.  Either way there is one rounding at the end, so
the result is the float in whose interval the decimal lies.

## Main definitions

* `wholeNumber`, `powerOfTen` — the magnitudes of the exact floats of the short way.

## Main results

* `mul_eq`, `div_eq` — a product or quotient is the float that it rounds to.
* `ofScientific_eq` — so is a converted decimal.
* `exists_rounds` — every count of 64 bits rounds to some float.
-/

namespace MarketSignals.Decimal

open Float.Model (Format UnpackedFloat totalExponent)
open Float.Model.UnpackedFloat (ExtendedMantissa roundWithAccuracy accuracyOfFraction divCore)

/-! ## Products and quotients -/

/-- The product of two magnitudes, with enough bits between them, is the float that it
rounds to. -/
theorem mul_eq {d : Dyadic} (hd : d.Canonical) {m n : ℕ} {e f : ℤ} (hm : 0 < m) (hn : 0 < n)
    (hbits : 2 ^ 52 ≤ m * n) (hrounds : d.Rounds ((m * 2 ^ e) * (n * 2 ^ f))) :
    UnpackedFloat.mul Format.binary64 (.finite .positive m e hm) (.finite .positive n f hn) =
      d.unpacked hd false := by
  have hne : m * n ≠ 0 := Nat.mul_ne_zero (Nat.ne_of_gt hm) (Nat.ne_of_gt hn)
  have hexact : Represents (ExtendedMantissa.ofMantissaAndAccuracy (m * n) .exact)
      ((m * n : ℕ) : ℚ) := rfl
  refine roundWithAccuracy_eq hd hexact (.inl ((Nat.le_log2 hne).mpr hbits)) ?_ false
  have hvalue : (m * 2 ^ e) * (n * 2 ^ f) = ((m * n : ℕ) : ℚ) * 2 ^ (e + f) := by
    rw [zpow_add₀ (by norm_num)]
    push_cast
    ring
  rwa [← hvalue]

/-- The rest of a division says on which side of the middle the quotient lies. -/
theorem represents_quotient (m : ℕ) {n : ℕ} (hn : 0 < n) :
    Represents (ExtendedMantissa.ofMantissaAndAccuracy (m / n) (accuracyOfFraction (m % n) n))
      ((m : ℚ) / n) := by
  have hnpos : (0 : ℚ) < n := by exact_mod_cast hn
  have hsum : ((m % n : ℕ) : ℚ) + n * ((m / n : ℕ) : ℚ) = m := by
    exact_mod_cast Nat.mod_add_div m n
  have hquotient : (m : ℚ) / n = (m / n : ℕ) + ((m % n : ℕ) : ℚ) / n := by
    rw [← hsum, add_div, mul_div_cancel_left₀ _ hnpos.ne', add_comm]
  have hlt : ((m % n : ℕ) : ℚ) / n < 1 := by
    rw [div_lt_one hnpos]
    exact_mod_cast Nat.mod_lt m hn
  rw [hquotient]
  unfold accuracyOfFraction
  split
  next hzero =>
    rw [hzero]
    simp [Represents, ExtendedMantissa.ofMantissaAndAccuracy]
  next hzero =>
    have hpos : 0 < ((m % n : ℕ) : ℚ) / n := by
      have : (0 : ℚ) < (m % n : ℕ) := by exact_mod_cast Nat.pos_of_ne_zero hzero
      positivity
    rcases lt_trichotomy (2 * (m % n)) n with h | h | h
    · have hlow : ((m % n : ℕ) : ℚ) / n < 1 / 2 := by
        rw [div_lt_iff₀ hnpos]
        have : (2 : ℚ) * (m % n : ℕ) < n := by exact_mod_cast h
        linarith
      rw [Nat.compare_eq_lt.mpr h]
      simp only [Represents, ExtendedMantissa.ofMantissaAndAccuracy]
      constructor <;> linarith
    · have hmiddle : ((m % n : ℕ) : ℚ) / n = 1 / 2 := by
        rw [div_eq_iff hnpos.ne']
        have : (2 : ℚ) * (m % n : ℕ) = n := by exact_mod_cast h
        linarith
      rw [Nat.compare_eq_eq.mpr h]
      simp only [Represents, ExtendedMantissa.ofMantissaAndAccuracy]
      linarith
    · have hhigh : 1 / 2 < ((m % n : ℕ) : ℚ) / n := by
        rw [lt_div_iff₀ hnpos]
        have : (n : ℚ) < 2 * (m % n : ℕ) := by exact_mod_cast h
        linarith
      rw [Nat.compare_eq_gt.mpr h]
      simp only [Represents, ExtendedMantissa.ofMantissaAndAccuracy]
      constructor <;> linarith

/-- A division is carried far enough: to fifty-three bits, or to the least exponent. -/
theorem log2_quotient {m n : ℕ} {e f T : ℤ} {k : ℕ} (hm : 0 < m) (hn : 0 < n)
    (hT : T = min (e - f)
      (Format.binary64.targetExponent (totalExponent m e - totalExponent n f)))
    (hk : k = (e - f - T).toNat) : 52 ≤ (m <<< k / n).log2 ∨ T ≤ -1074 := by
  have htarget : Format.binary64.targetExponent (totalExponent m e - totalExponent n f) =
      max (((m.log2 : ℤ) + 1 + e) - ((n.log2 : ℤ) + 1 + f) - 53) (-1074) := by
    have h : Format.binary64.minExponent = -1074 := by decide
    show max _ Format.binary64.minExponent = _
    rw [h]
    rfl
  by_cases hleast : T ≤ -1074
  · exact .inr hleast
  left
  have hlog : n.log2 + 53 ≤ m.log2 + k := by omega
  have hn' : n < 2 ^ (n.log2 + 1) := Nat.lt_log2_self
  have hm' : 2 ^ m.log2 ≤ m := Nat.log2_self_le (Nat.ne_of_gt hm)
  have hle : 2 ^ 52 * n ≤ m * 2 ^ k := by
    calc 2 ^ 52 * n ≤ 2 ^ 52 * 2 ^ (n.log2 + 1) := Nat.mul_le_mul_left _ hn'.le
      _ = 2 ^ (n.log2 + 53) := by rw [← pow_add]; congr 1; omega
      _ ≤ 2 ^ (m.log2 + k) := Nat.pow_le_pow_right (by decide) hlog
      _ = 2 ^ m.log2 * 2 ^ k := pow_add _ _ _
      _ ≤ m * 2 ^ k := Nat.mul_le_mul_right _ hm'
  have hquotient : 2 ^ 52 ≤ m <<< k / n := by
    rw [Nat.le_div_iff_mul_le hn, Nat.shiftLeft_eq]
    exact hle
  exact (Nat.le_log2 (by omega)).mpr hquotient

/-- What a division computes stands for the quotient, with enough bits. -/
theorem exists_divCore {m n : ℕ} (hm : 0 < m) (hn : 0 < n) (e f : ℤ) :
    ∃ c T a y, divCore Format.binary64 m e n f = (c, T, a) ∧
      Represents (ExtendedMantissa.ofMantissaAndAccuracy c a) y ∧
      (52 ≤ c.log2 ∨ T ≤ -1074) ∧ ((m : ℚ) * 2 ^ e) / (n * 2 ^ f) = y * 2 ^ T := by
  obtain ⟨T, hT⟩ : ∃ T, T = min (e - f)
      (Format.binary64.targetExponent (totalExponent m e - totalExponent n f)) := ⟨_, rfl⟩
  obtain ⟨k, hk⟩ : ∃ k, k = (e - f - T).toNat := ⟨_, rfl⟩
  refine ⟨m <<< k / n, T, accuracyOfFraction (m <<< k % n) n, (m <<< k : ℕ) / n, ?_,
    represents_quotient _ hn, log2_quotient hm hn hT hk, ?_⟩
  · simp only [divCore, ← hT, ← hk]
  · have hT' : T = e - f - k := by omega
    have hnpos : (n : ℚ) ≠ 0 := by exact_mod_cast Nat.ne_of_gt hn
    rw [hT', zpow_sub₀ (by norm_num), zpow_sub₀ (by norm_num), zpow_natCast, Nat.shiftLeft_eq]
    push_cast
    field_simp

/-- The quotient of two magnitudes is the float that it rounds to. -/
theorem div_eq {d : Dyadic} (hd : d.Canonical) {m n : ℕ} {e f : ℤ} (hm : 0 < m) (hn : 0 < n)
    (hrounds : d.Rounds ((m * 2 ^ e) / (n * 2 ^ f))) :
    UnpackedFloat.div Format.binary64 (.finite .positive m e hm) (.finite .positive n f hn) =
      d.unpacked hd false := by
  obtain ⟨c, T, a, y, hcore, hy, hbits, hvalue⟩ := exists_divCore hm hn e f
  rw [hvalue] at hrounds
  show roundWithAccuracy Format.binary64 (signOf false) (divCore Format.binary64 m e n f).1
    (divCore Format.binary64 m e n f).2.1 (divCore Format.binary64 m e n f).2.2 = _
  rw [hcore]
  exact roundWithAccuracy_eq hd hy hbits hrounds false

/-! ## Whole numbers and powers of ten -/

/-- A float is what its own value rounds to. -/
theorem Dyadic.rounds_value (d : Dyadic) : d.Rounds d.value := by
  have hpos : (0 : ℚ) < 2 ^ d.exponent := two_zpow_pos d.exponent
  have hbelow : 0 < d.below := by
    unfold Dyadic.below
    split <;> norm_num
  have hlow : (4 * d.mantissa - d.below) * 2 ^ d.exponent < 4 * d.value := by
    unfold Dyadic.value
    nlinarith
  have hhigh : 4 * d.value < (4 * d.mantissa + 2) * 2 ^ d.exponent := by
    unfold Dyadic.value
    nlinarith
  exact ⟨hlow.le, hhigh.le, fun _ => ⟨hlow, hhigh⟩⟩

/-- A positive whole number of at most fifty-three bits, with all of them in the
mantissa. -/
def wholeNumber (c : ℕ) : Dyadic := ⟨c * 2 ^ (52 - c.log2), (c.log2 : ℤ) - 52⟩

theorem canonical_wholeNumber {c : ℕ} (hpos : 0 < c) (hlt : c < 2 ^ 53) :
    (wholeNumber c).Canonical ∧ 2 ^ 52 ≤ (wholeNumber c).mantissa := by
  have hlog := log2_le_of_lt hlt
  have hlow : 2 ^ 52 ≤ c * 2 ^ (52 - c.log2) := by
    calc 2 ^ 52 = 2 ^ c.log2 * 2 ^ (52 - c.log2) := by rw [← pow_add, Nat.add_sub_cancel' hlog]
      _ ≤ c * 2 ^ (52 - c.log2) :=
        Nat.mul_le_mul_right _ (Nat.log2_self_le (Nat.ne_of_gt hpos))
  have hhigh : c * 2 ^ (52 - c.log2) < 2 ^ 53 := by
    calc c * 2 ^ (52 - c.log2) < 2 ^ (c.log2 + 1) * 2 ^ (52 - c.log2) :=
        Nat.mul_lt_mul_of_pos_right Nat.lt_log2_self (by positivity)
      _ = 2 ^ 53 := by rw [← pow_add]; congr 1; omega
  exact ⟨.normalized hlow hhigh (by omega) (by omega), hlow⟩

theorem value_wholeNumber {c : ℕ} (hlt : c < 2 ^ 53) : (wholeNumber c).value = c := by
  have hlog := log2_le_of_lt hlt
  have hpow : (2 : ℚ) ^ (52 - c.log2) * 2 ^ ((c.log2 : ℤ) - 52) = 1 := by
    rw [← zpow_natCast, ← zpow_add₀ (by norm_num)]
    have : ((52 - c.log2 : ℕ) : ℤ) + ((c.log2 : ℤ) - 52) = 0 := by omega
    rw [this, zpow_zero]
  unfold Dyadic.value wholeNumber
  push_cast
  rw [mul_assoc, hpow, mul_one]

/-- A count of at most fifty-three bits converts exactly. -/
theorem toFloat_eq {c : ℕ} (hpos : 0 < c) (hlt : c < 2 ^ 53) :
    c.toUInt64.toFloat = (wholeNumber c).float (canonical_wholeNumber hpos hlt).1 false := by
  obtain ⟨hcanonical, hnormal⟩ := canonical_wholeNumber hpos hlt
  have hlog := log2_le_of_lt hlt
  have hnat : c.toUInt64.toNat = c := UInt64.toNat_ofNat_of_lt' (Nat.lt_trans hlt (by decide))
  have hconvert : UnpackedFloat.ofUInt64 Format.binary64 c.toUInt64 =
      UnpackedFloat.round Format.binary64 .positive c 0 := by
    have hcompare : compare (c : ℤ) 0 = .gt := Int.compare_eq_gt.mpr (by omega)
    show UnpackedFloat.normalize Format.binary64 (c.toUInt64.toNat : ℤ) 0 .positive = _
    rw [hnat]
    unfold UnpackedFloat.normalize
    rw [hcompare]
    rfl
  have hround : UnpackedFloat.round Format.binary64 .positive c 0 =
      roundWithAccuracy Format.binary64 (signOf false) (wholeNumber c).mantissa
        (wholeNumber c).exponent .exact := by
    have hshift : (0 - Format.binary64.targetExponent (totalExponent c 0)).toNat =
        52 - c.log2 := by
      rw [targetExponent_eq]
      omega
    have hexponent : (0 : ℤ) - ((52 - c.log2 : ℕ) : ℤ) = (c.log2 : ℤ) - 52 := by omega
    unfold UnpackedFloat.round Float.Model.UnpackedFloat.decreaseExponent
    simp only [hshift, hexponent, Nat.shiftLeft_eq]
    rfl
  have hexact : Represents
      (ExtendedMantissa.ofMantissaAndAccuracy (wholeNumber c).mantissa .exact)
      ((wholeNumber c).mantissa : ℚ) := rfl
  have hbits : 52 ≤ (wholeNumber c).mantissa.log2 :=
    (Nat.le_log2 (Nat.ne_of_gt hcanonical.pos)).mpr hnormal
  show Float.ofModel (.pack (UnpackedFloat.ofUInt64 Format.binary64 c.toUInt64)) = _
  rw [hconvert, hround,
    roundWithAccuracy_eq hcanonical hexact (.inl hbits) (wholeNumber c).rounds_value false]
  rfl

/-- A power of ten with an exact float. -/
def powerOfTen (e : ℕ) : Dyadic :=
  ⟨10 ^ e * 2 ^ 52 / 2 ^ (10 ^ e).log2, ((10 ^ e).log2 : ℤ) - 52⟩

/-- The table of powers holds the powers up to the twenty-second. -/
theorem of_powers : ∀ e : Fin 23,
    FloatValue.of Float.exactlyRepresentablePowersOfTen[e] = .finite false (powerOfTen e) := by
  decide

theorem mantissa_powerOfTen : ∀ e : Fin 23,
    (powerOfTen e).mantissa * 2 ^ (10 ^ (e : ℕ)).log2 = 10 ^ (e : ℕ) * 2 ^ 52 ∧
      2 ^ 52 ≤ (powerOfTen e).mantissa := by
  decide

theorem value_powerOfTen (e : Fin 23) : (powerOfTen e).value = 10 ^ (e : ℕ) := by
  have hmantissa : ((powerOfTen e).mantissa : ℚ) * 2 ^ (10 ^ (e : ℕ)).log2 =
      10 ^ (e : ℕ) * 2 ^ 52 := by exact_mod_cast (mantissa_powerOfTen e).1
  have hexponent : (powerOfTen e).exponent = ((10 ^ (e : ℕ)).log2 : ℤ) - (52 : ℕ) := rfl
  unfold Dyadic.value
  rw [hexponent, zpow_sub₀ (by norm_num), zpow_natCast, zpow_natCast, ← mul_div_assoc, hmantissa]
  field_simp

/-! ## Decimals -/

theorem float_mul {d : Dyadic} (hd : d.Canonical) {a b : Dyadic} (ha : a.Canonical)
    (hb : b.Canonical) (hbits : 2 ^ 52 ≤ a.mantissa * b.mantissa)
    (hrounds : d.Rounds (a.value * b.value)) :
    a.float ha false * b.float hb false = d.float hd false := by
  show Float.ofModel (.pack (UnpackedFloat.mul Format.binary64 (a.float ha false).toModel.unpack
    (b.float hb false).toModel.unpack)) = _
  rw [unpack_float, unpack_float, show UnpackedFloat.mul Format.binary64 (a.unpacked ha false)
    (b.unpacked hb false) = d.unpacked hd false from mul_eq hd ha.pos hb.pos hbits hrounds]
  rfl

theorem float_div {d : Dyadic} (hd : d.Canonical) {a b : Dyadic} (ha : a.Canonical)
    (hb : b.Canonical) (hrounds : d.Rounds (a.value / b.value)) :
    a.float ha false / b.float hb false = d.float hd false := by
  show Float.ofModel (.pack (UnpackedFloat.div Format.binary64 (a.float ha false).toModel.unpack
    (b.float hb false).toModel.unpack)) = _
  rw [unpack_float, unpack_float, show UnpackedFloat.div Format.binary64 (a.unpacked ha false)
    (b.unpacked hb false) = d.unpacked hd false from div_eq hd ha.pos hb.pos hrounds]
  rfl

theorem exists_power {e : ℕ} (he : e < 23) :
    ∃ hd, Float.exactlyRepresentablePowersOfTen[e] = (powerOfTen e).float hd false :=
  eq_float_of_finite (of_powers ⟨e, he⟩)

theorem zpow_of_neg {e : ℤ} (he : e < 0) : (10 : ℚ) ^ e = 1 / 10 ^ e.natAbs := by
  rw [one_div, ← zpow_natCast, ← zpow_neg]
  congr 1
  omega

theorem zpow_of_nonneg {e : ℤ} (he : 0 ≤ e) : (10 : ℚ) ^ e = 10 ^ e.natAbs := by
  rw [← zpow_natCast]
  congr 1
  omega

/-- Few digits and a small power are multiplied or divided as floats. -/
theorem fast_eq {d : Dyadic} (hd : d.Canonical) {c : ℕ} {e : ℤ} (hc : 0 < c)
    (hlt : c < 2 ^ 53) (he : e.natAbs < 23) (hrounds : d.Rounds (c * 10 ^ e)) :
    (if e < 0 then c.toUInt64.toFloat / Float.exactlyRepresentablePowersOfTen[e.natAbs]
      else c.toUInt64.toFloat * Float.exactlyRepresentablePowersOfTen[e.natAbs]) =
      d.float hd false := by
  obtain ⟨hwhole, hnormal⟩ := canonical_wholeNumber hc hlt
  obtain ⟨hpower, htable⟩ := exists_power he
  have hpowerValue : (powerOfTen e.natAbs).value = 10 ^ e.natAbs := value_powerOfTen ⟨_, he⟩
  have hwholeValue := value_wholeNumber hlt
  rw [toFloat_eq hc hlt, htable]
  split
  next hneg =>
    refine float_div hd hwhole hpower ?_
    rw [hwholeValue, hpowerValue, div_eq_mul_one_div, ← zpow_of_neg hneg]
    exact hrounds
  next hneg =>
    refine float_mul hd hwhole hpower ?_ ?_
    · calc 2 ^ 52 ≤ (wholeNumber c).mantissa := hnormal
        _ ≤ (wholeNumber c).mantissa * (powerOfTen e.natAbs).mantissa :=
          Nat.le_mul_of_pos_right _ hpower.pos
    · rw [hwholeValue, hpowerValue, ← zpow_of_nonneg (by omega)]
      exact hrounds

/-- Any other decimal is converted exactly and rounded once. -/
theorem slow_eq {d : Dyadic} (hd : d.Canonical) {c : ℕ} {e : ℤ} (hc : 0 < c)
    (hlow : -(2048 + (c.log2 : ℤ)) ≤ e) (hhigh : e ≤ 2048) (hrounds : d.Rounds (c * 10 ^ e)) :
    UnpackedFloat.ofScientific Format.binary64 c e = d.unpacked hd false := by
  have hbits : (2 : ℤ) ^ Format.binary64.exponentBits = 2048 := rfl
  unfold UnpackedFloat.ofScientific
  rw [dif_neg (Nat.ne_of_gt hc), hbits, if_neg (by omega), if_neg (by omega)]
  by_cases hnonneg : 0 ≤ e
  · rw [if_pos hnonneg]
    have hmantissa : c <<< Format.binary64.mantissaBits = c * 2 ^ 53 := Nat.shiftLeft_eq _ _
    refine mul_eq hd _ _ ?_ ?_
    · calc 2 ^ 52 ≤ c * 2 ^ 53 := by omega
        _ = c <<< Format.binary64.mantissaBits := hmantissa.symm
        _ ≤ c <<< Format.binary64.mantissaBits * 10 ^ e.toNat :=
          Nat.le_mul_of_pos_right _ (by positivity)
    · have hvalue : ((c <<< Format.binary64.mantissaBits : ℕ) : ℚ) *
          2 ^ (-(Format.binary64.mantissaBits : ℤ)) * (((10 ^ e.toNat : ℕ) : ℚ) * 2 ^ (0 : ℤ)) =
          c * 10 ^ e := by
        have hunit : (2 : ℚ) ^ (-(Format.binary64.mantissaBits : ℤ)) = 1 / 2 ^ 53 := by
          rw [zpow_neg, zpow_natCast, one_div]
          rfl
        have hexponent : e.natAbs = e.toNat := by omega
        rw [hmantissa, hunit, zpow_of_nonneg hnonneg, hexponent, zpow_zero]
        push_cast
        field_simp
        norm_num
      rw [hvalue]
      exact hrounds
  · rw [if_neg hnonneg]
    refine div_eq hd _ _ ?_
    have hvalue : (c : ℚ) * 2 ^ (0 : ℤ) / (((10 ^ (-e).toNat : ℕ) : ℚ) * 2 ^ (0 : ℤ)) =
        c * 10 ^ e := by
      have hexponent : e.natAbs = (-e).toNat := by omega
      rw [zpow_of_neg (by omega), hexponent, zpow_zero]
      push_cast
      field_simp
    rw [hvalue]
    exact hrounds

/-- A decimal that rounds to a float is converted to it. -/
theorem ofScientific_eq {d : Dyadic} (hd : d.Canonical) {c : ℕ} {e : ℤ} (hc : 0 < c)
    (hlow : -(2048 + (c.log2 : ℤ)) ≤ e) (hhigh : e ≤ 2048)
    (hrounds : d.Rounds (c * 10 ^ e)) :
    Float.ofScientific c (e < 0) e.natAbs = d.float hd false := by
  unfold Float.ofScientific
  split
  next hfast =>
    have hfloat := fast_eq hd hc hfast.1 (by omega : e.natAbs < 23) hrounds
    by_cases hneg : e < 0
    · rw [if_pos hneg] at hfloat
      rw [if_pos (decide_eq_true hneg)]
      exact hfloat
    · rw [if_neg hneg] at hfloat
      rw [if_neg (by simpa using hneg)]
      exact hfloat
  next hslow =>
    have hsigned : (if decide (e < 0) = true then Int.negOfNat e.natAbs else Int.ofNat e.natAbs) =
        e := by
      split
      · next h =>
          have := of_decide_eq_true h
          rw [Int.negOfNat_eq]
          simp only [Int.ofNat_eq_natCast]
          omega
      · next h =>
          have : ¬e < 0 := fun hlt => h (decide_eq_true hlt)
          simp only [Int.ofNat_eq_natCast]
          omega
    show Float.ofModel (.pack (UnpackedFloat.ofScientific Format.binary64 c _)) = _
    rw [hsigned, slow_eq hd hc hlow hhigh hrounds]
    rfl

/-! ## Counts -/

/-- Every count of 64 bits rounds to some float. -/
theorem exists_rounds {n : ℕ} (hpos : 0 < n) (hlt : n < 2 ^ 64) :
    ∃ d : Dyadic, d.Canonical ∧ d.Rounds n := by
  by_cases hsmall : n < 2 ^ 53
  · refine ⟨wholeNumber n, (canonical_wholeNumber hpos hsmall).1, ?_⟩
    have hrounds := (wholeNumber n).rounds_value
    rwa [value_wholeNumber hsmall] at hrounds
  -- more than fifty-three bits: the rest is rounded off
  have hlog : 53 ≤ n.log2 := (Nat.le_log2 (Nat.ne_of_gt hpos)).mpr (by omega)
  have hlog' : n.log2 < 64 := (Nat.log2_lt (Nat.ne_of_gt hpos)).mpr hlt
  obtain ⟨k, hk⟩ : ∃ k, n.log2 = 52 + k := ⟨n.log2 - 52, by omega⟩
  have hkpos : (0 : ℚ) < (2 ^ k : ℕ) := by exact_mod_cast Nat.two_pow_pos k
  have hvalue : (n : ℚ) = n / (2 ^ k : ℕ) * 2 ^ (k : ℤ) := by
    rw [zpow_natCast]
    push_cast
    field_simp
  have hlow : (2 : ℚ) ^ 52 ≤ n / (2 ^ k : ℕ) := by
    rw [le_div_iff₀ hkpos]
    have hle : 2 ^ n.log2 ≤ n := Nat.log2_self_le (Nat.ne_of_gt hpos)
    rw [hk, pow_add] at hle
    exact_mod_cast hle
  have hhigh : (n : ℚ) / (2 ^ k : ℕ) < 2 ^ 53 := by
    rw [div_lt_iff₀ hkpos]
    have hlt : n < 2 ^ (n.log2 + 1) := Nat.lt_log2_self
    rw [hk, Nat.add_right_comm, pow_add] at hlt
    exact_mod_cast hlt
  rw [hvalue]
  exact (represents_quotient n (Nat.two_pow_pos k)).nearest.exists_rounds hlow hhigh (by omega)
    (by omega)

end MarketSignals.Decimal
