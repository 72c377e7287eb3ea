import MarketSignals.Proofs.Decimal.Conversion
import MarketSignals.Proofs.Decimal.Layout
import MarketSignals.Proofs.Decimal.Shortest

/-!
# Floats read back from their numerals

A numeral is read as the float that its value rounds to.  Laying digits out keeps their
value, and the digits that a writer chooses round to the float they are chosen for; so
every finite float is read back from its numeral, with its sign, in any style.

## Main definitions

* `Numeral.value` — the exact value that a numeral writes, sign aside.
* `Numeral.Canonical` — numerals without a zero in front of other digits.

## Main results

* `Numeral.toFloat?_eq` — a numeral is read as the float that its value rounds to.
* `Style.value_layOut` — laying digits out keeps their value.
* `Style.toFloat?_of_numeral?` — every finite float is read back from its numeral.
-/

namespace MarketSignals.Decimal

/-! ## Values of numerals -/

namespace Numeral

/-- Digits behind others move those to the left. -/
theorem digitsValue_append (l m : List Char) :
    digitsValue (l ++ m) = 10 ^ m.length * digitsValue l + digitsValue m :=
  (Nat.ofDigitChars_append 0).trans Nat.ofDigitChars_eq_ofDigitChars_zero

theorem digitsValue_zeros (k : ℕ) : digitsValue (List.replicate k '0') = 0 :=
  Nat.ofDigitChars_replicate_zero.trans (Nat.mul_zero _)

/-- The exact value that a numeral writes, sign aside. -/
def value (n : Numeral) : ℚ :=
  digitsValue (n.whole ++ n.fraction) * 10 ^ (n.exponent.getD 0 - n.fraction.length : ℤ)

theorem value_ofNat (n : ℕ) : (ofNat n).value = n := by
  have hdigits : digitsValue (Nat.toDigits 10 n ++ []) = n := by
    rw [List.append_nil, digitsValue_toDigits]
  show (digitsValue (Nat.toDigits 10 n ++ []) : ℚ) * 10 ^ (0 : ℤ) = n
  rw [hdigits, zpow_zero, mul_one]

end Numeral

/-- Laying digits out keeps their value, wherever the point goes. -/
theorem Style.value_layOut (style : Style) (negative : Bool) (d : Digits) :
    (style.layOut negative d).value = d.value := by
  have hlength : 0 < (Nat.toDigits 10 d.coefficient).length := digitCount_pos d.coefficient
  unfold Style.layOut Numeral.value Digits.value
  simp only
  split
  · split
    next hnonneg =>
      have hpow : (10 : ℚ) ^ d.exponent = 10 ^ d.exponent.toNat := by
        rw [← zpow_natCast]
        congr 1
        omega
      have hwhole : Numeral.digitsValue (Nat.toDigits 10 d.coefficient ++
          List.replicate d.exponent.toNat '0') = 10 ^ d.exponent.toNat * d.coefficient := by
        rw [Numeral.digitsValue_append, Numeral.digitsValue_zeros, digitsValue_toDigits,
          List.length_replicate, Nat.add_zero]
      rw [Numeral.digitsValue_append, hwhole, hpow]
      split
      · -- the zero after the point makes up for the place it takes
        show (((10 ^ 1 * (10 ^ d.exponent.toNat * d.coefficient) + 0 : ℕ) : ℚ)) *
          10 ^ (-1 : ℤ) = _
        push_cast
        ring
      · show (((10 ^ 0 * (10 ^ d.exponent.toNat * d.coefficient) + 0 : ℕ) : ℚ)) *
          10 ^ (0 : ℤ) = _
        push_cast
        ring
    · split
      · rw [List.take_append_drop, digitsValue_toDigits, List.length_drop, Option.getD_none]
        congr 2
        omega
      · have hwhole : ∀ k, Numeral.digitsValue
            (['0'] ++ (List.replicate k '0' ++ Nat.toDigits 10 d.coefficient)) = d.coefficient := by
          intro k
          show Numeral.digitsValue (List.replicate (k + 1) '0' ++ _) = _
          rw [Numeral.digitsValue_append, Numeral.digitsValue_zeros, digitsValue_toDigits,
            Nat.mul_zero, Nat.zero_add]
        rw [hwhole, List.length_append, List.length_replicate, Option.getD_none]
        congr 2
        omega
  · rw [List.take_append_drop, digitsValue_toDigits, List.length_drop, Option.getD_some]
    congr 2
    omega

/-! ## The range of floats -/

section Range

variable {x : Dyadic} {c : ℕ} {e : ℤ}

/-- What rounds to a float is at least half the least float. -/
theorem Dyadic.Rounds.lower {q : ℚ} (h : x.Rounds q) (hx : x.Canonical) :
    (2 : ℚ) ^ (-1075 : ℤ) ≤ q := by
  have hmantissa : (1 : ℚ) ≤ x.mantissa := by exact_mod_cast hx.pos
  have hleast : (2 : ℚ) ^ (-1074 : ℤ) ≤ 2 ^ x.exponent :=
    zpow_le_zpow_right₀ (by norm_num) hx.least
  have hhalf : (2 : ℚ) ^ (-1074 : ℤ) = 2 * 2 ^ (-1075 : ℤ) := by
    rw [← zpow_one_add₀ (by norm_num)]
    rfl
  have hbelow := x.below_le
  have hlow := h.low
  have hpos := two_zpow_pos x.exponent
  nlinarith

/-- What rounds to a float is below the power of two that is out of range. -/
theorem Dyadic.Rounds.upper {q : ℚ} (h : x.Rounds q) (hx : x.Canonical) :
    q < 2 ^ (1024 : ℤ) := by
  have hmantissa : (x.mantissa : ℚ) + 1 ≤ 2 ^ 53 := by exact_mod_cast hx.lt
  have hgreatest : (2 : ℚ) ^ x.exponent ≤ 2 ^ (971 : ℤ) :=
    zpow_le_zpow_right₀ (by norm_num) hx.greatest
  have hhigh := h.high
  have hpos := two_zpow_pos x.exponent
  calc q < 2 ^ 53 * 2 ^ x.exponent := by nlinarith
    _ ≤ 2 ^ 53 * 2 ^ (971 : ℤ) := mul_le_mul_of_nonneg_left hgreatest (by norm_num)
    _ = 2 ^ (1024 : ℤ) := by
      rw [← zpow_natCast, ← zpow_add₀ (by norm_num)]
      rfl

theorem coefficient_pos (hx : x.Canonical) (h : x.Rounds (c * 10 ^ e)) : 0 < c := by
  refine Nat.pos_of_ne_zero fun hzero => ?_
  have hlower := h.lower hx
  rw [hzero, Nat.cast_zero, zero_mul] at hlower
  exact absurd hlower (not_le_of_gt (two_zpow_pos _))

/-- The leading digit of a decimal that rounds to a float is not far from those of the
least and of the greatest. -/
theorem leading_bounds (hx : x.Canonical) (h : x.Rounds (c * 10 ^ e)) :
    -330 ≤ e + digitCount c ∧ e + digitCount c ≤ 310 := by
  have hpos := coefficient_pos hx h
  have hunit : (0 : ℚ) < 10 ^ e := zpow_pos (by norm_num) e
  have hcount := digitCount_pos c
  constructor
  · have hlt : (2 : ℚ) ^ (-1075 : ℤ) < 10 ^ (e + digitCount c) := by
      calc (2 : ℚ) ^ (-1075 : ℤ) ≤ c * 10 ^ e := h.lower hx
        _ < 10 ^ digitCount c * 10 ^ e :=
          mul_lt_mul_of_pos_right (by exact_mod_cast lt_pow_digitCount c) hunit
        _ = 10 ^ (e + digitCount c) := by rw [zpow_add₀ (by norm_num), zpow_natCast, mul_comm]
    by_contra hless
    have hle : (10 : ℚ) ^ (e + digitCount c) ≤ 10 ^ (-330 : ℤ) :=
      zpow_le_zpow_right₀ (by norm_num) (by omega)
    have hnum : (10 : ℚ) ^ (-330 : ℤ) < 2 ^ (-1075 : ℤ) := by
      calc (10 : ℚ) ^ (-330 : ℤ) = ((10 ^ 66)⁻¹) ^ 5 := by
            rw [inv_pow, ← pow_mul, ← zpow_natCast, ← zpow_neg]
            rfl
        _ < ((2 ^ 215)⁻¹) ^ 5 := pow_lt_pow_left₀ (by norm_num) (by norm_num) (by norm_num)
        _ = 2 ^ (-1075 : ℤ) := by
            rw [inv_pow, ← pow_mul, ← zpow_natCast, ← zpow_neg]
            rfl
    linarith
  · have hlt : (10 : ℚ) ^ (e + digitCount c - 1) < 2 ^ (1024 : ℤ) := by
      calc (10 : ℚ) ^ (e + digitCount c - 1) = 10 ^ (digitCount c - 1) * 10 ^ e := by
            rw [← zpow_natCast, ← zpow_add₀ (by norm_num)]
            congr 1
            omega
        _ ≤ c * 10 ^ e :=
          mul_le_mul_of_nonneg_right (by exact_mod_cast pow_digitCount_le hpos) hunit.le
        _ < 2 ^ (1024 : ℤ) := h.upper hx
    by_contra hmore
    have hle : (10 : ℚ) ^ (310 : ℤ) ≤ 10 ^ (e + digitCount c - 1) :=
      zpow_le_zpow_right₀ (by norm_num) (by omega)
    have hnum : (2 : ℚ) ^ (1024 : ℤ) < 10 ^ (310 : ℤ) := by
      calc (2 : ℚ) ^ (1024 : ℤ) < 2 ^ (1025 : ℤ) :=
            zpow_lt_zpow_right₀ (by norm_num) (by norm_num)
        _ = (2 ^ 205) ^ 5 := by rw [← pow_mul]; rfl
        _ < (10 ^ 62) ^ 5 := pow_lt_pow_left₀ (by norm_num) (by norm_num) (by norm_num)
        _ = 10 ^ (310 : ℤ) := by rw [← pow_mul]; rfl
    exact absurd (hle.trans_lt hlt) (not_lt_of_gt hnum)

/-- The exponent of a decimal that rounds to a float is not far out of range either. -/
theorem exponent_bounds (hx : x.Canonical) (h : x.Rounds (c * 10 ^ e)) :
    -(2048 + (c.log2 : ℤ)) ≤ e ∧ e ≤ 2048 := by
  have hcount : digitCount c ≤ c.log2 + 1 := by
    refine (Nat.length_toDigits_le_iff (by decide) (Nat.succ_pos _)).mpr ?_
    calc c < 2 ^ (c.log2 + 1) := Nat.lt_log2_self
      _ ≤ 10 ^ (c.log2 + 1) := Nat.pow_le_pow_left (by decide) _
  have hleading := leading_bounds hx h
  omega

end Range

/-! ## Reading -/

/-- A numeral is read as the float that its value rounds to, with the sign that is
written. -/
theorem Numeral.toFloat?_eq {n : Numeral} {x : Dyadic} (hx : x.Canonical)
    (h : x.Rounds n.value) : n.toFloat? = some (x.float hx n.negative) := by
  have hpos := coefficient_pos hx h
  obtain ⟨hlow, hhigh⟩ := leading_bounds hx h
  obtain ⟨hleast, hgreatest⟩ := exponent_bounds hx h
  unfold Numeral.toFloat?
  simp only
  rw [if_neg (Nat.ne_of_gt hpos), if_neg (by omega), if_neg (by omega),
    ofScientific_eq hx hpos hleast hgreatest h, if_pos (isFinite_float hx false), neg_float]
  cases n.negative <;> rfl

/-- A numeral of the value zero is read as the zero with the sign that is written. -/
theorem Numeral.toFloat?_of_value_eq_zero {n : Numeral} (h : n.value = 0) :
    n.toFloat? = some (if n.negative then -0 else 0) := by
  have hzero : digitsValue (n.whole ++ n.fraction) = 0 := by
    rcases mul_eq_zero.mp h with h | h
    · exact_mod_cast h
    · exact absurd h (zpow_ne_zero _ (by norm_num))
  unfold Numeral.toFloat?
  simp only
  rw [if_pos hzero]

/-- Whatever is read from a numeral is finite. -/
theorem Numeral.isFinite_of_toFloat? {n : Numeral} {x : Float} (h : n.toFloat? = some x) :
    x.isFinite = true := by
  have hsigned : ∀ y : Float, y.isFinite = true →
      (if n.negative = true then -y else y).isFinite = true := by
    intro y hy
    split
    · exact isFinite_neg hy
    · exact hy
  unfold Numeral.toFloat? at h
  simp only at h
  split at h
  · exact Option.some.inj h ▸ hsigned 0 (by decide)
  split at h
  · cases h
  split at h
  · exact Option.some.inj h ▸ hsigned 0 (by decide)
  split at h
  next hfinite => exact Option.some.inj h ▸ hsigned _ hfinite
  · cases h

theorem Style.negative_layOut (style : Style) (negative : Bool) (d : Digits) :
    (style.layOut negative d).negative = negative := by
  unfold Style.layOut
  simp only
  split
  · split
    · rfl
    · split <;> rfl
  · rfl

/-- Every finite float is read back from its numeral, in any style. -/
theorem Style.toFloat?_of_numeral? {style : Style} {x : Float} {n : Numeral}
    (h : style.numeral? x = some n) : n.toFloat? = some x := by
  unfold Style.numeral? at h
  split at h
  · cases h
  · cases h
  next negative hzero =>
    cases h
    have hvalue : (style.layOut negative ⟨0, 0⟩).value = 0 := by
      rw [value_layOut]
      simp [Digits.value]
    rw [Numeral.toFloat?_of_value_eq_zero hvalue, negative_layOut, eq_zero_of_zero hzero]
  next negative d hfinite =>
    cases h
    obtain ⟨hd, rfl⟩ := eq_float_of_finite hfinite
    have hrounds : d.Rounds (style.layOut negative (d.shortest style.tie)).value := by
      rw [value_layOut]
      exact d.rounds_shortest hd style.tie
    rw [Numeral.toFloat?_eq hd hrounds, negative_layOut]

/-! ## Numerals as a writer lays them out -/

/-- A numeral as a writer lays it out: no zero in front of other digits before the
point. -/
structure Numeral.Canonical (n : Numeral) : Prop extends n.Proper where
  leading : n.whole = ['0'] ∨ n.whole.head? ≠ some '0'

/-- The digits of a natural are those of zero or do not begin with one. -/
theorem leading_toDigits (n : ℕ) :
    Nat.toDigits 10 n = ['0'] ∨ (Nat.toDigits 10 n).head? ≠ some '0' := by
  rcases Nat.eq_zero_or_pos n with rfl | hn
  · exact .inl rfl
  · exact .inr (head?_toDigits hn)

theorem Style.canonical_layOut (style : Style) (negative : Bool) {d : Digits}
    (hd : 0 < d.coefficient ∨ d.exponent = 0) : (style.layOut negative d).Canonical := by
  refine ⟨style.proper_layOut negative d, ?_⟩
  have htake : ∀ k, 0 < k → (Nat.toDigits 10 d.coefficient).take k = ['0'] ∨
      ((Nat.toDigits 10 d.coefficient).take k).head? ≠ some '0' := by
    intro k hk
    rw [List.head?_take, if_neg (Nat.ne_of_gt hk)]
    rcases leading_toDigits d.coefficient with h | h
    · rw [h]
      exact .inl (List.take_of_length_le hk)
    · exact .inr h
  unfold Style.layOut
  simp only
  split
  · split
    · rcases hd with hpos | hzero
      · refine .inr ?_
        rw [List.head?_append_of_ne_nil _ Nat.toDigits_ne_nil]
        exact head?_toDigits hpos
      · rw [hzero]
        simpa using leading_toDigits d.coefficient
    · split
      · exact htake _ (Nat.succ_pos _)
      · exact .inl rfl
  · exact htake 1 Nat.one_pos

/-- A finite float has a numeral in canonical form, and it is read back from it. -/
theorem Style.exists_numeral? (style : Style) {x : Float} (hx : x.isFinite = true) :
    ∃ n, style.numeral? x = some n ∧ n.Canonical ∧ n.toFloat? = some x := by
  obtain ⟨negative, d, hn, hd⟩ : ∃ negative d,
      style.numeral? x = some (style.layOut negative d) ∧
        (0 < d.coefficient ∨ d.exponent = 0) := by
    unfold Style.numeral?
    rcases of_eq_of_isFinite hx with ⟨negative, h⟩ | ⟨negative, d, h⟩
    · rw [h]
      exact ⟨negative, ⟨0, 0⟩, rfl, .inr rfl⟩
    · rw [h]
      obtain ⟨hd, -⟩ := eq_float_of_finite h
      exact ⟨negative, d.shortest style.tie, rfl,
        .inl (coefficient_pos hd (d.rounds_shortest hd style.tie))⟩
  exact ⟨_, hn, style.canonical_layOut negative hd, style.toFloat?_of_numeral? hn⟩

/-! ## Counts -/

namespace Numeral

theorem canonical_ofNat (n : ℕ) : (ofNat n).Canonical where
  whole_ne_nil := Nat.toDigits_ne_nil
  isDigit_whole := fun _ => isDigit_toDigits
  isDigit_fraction := fun _ hc => nomatch hc
  leading := leading_toDigits n

/-- A count is read back from its numeral. -/
theorem toNat?_ofNat (n : ℕ) : (ofNat n).toNat? = some n := by
  show some (digitsValue (Nat.toDigits 10 n)) = some n
  rw [digitsValue_toDigits]

/-- The numeral of a count of 64 bits is in the range of floats. -/
theorem isSome_toFloat?_ofNat {n : ℕ} (hn : n < UInt64.size) : (ofNat n).toFloat?.isSome := by
  rcases Nat.eq_zero_or_pos n with rfl | hpos
  · rw [toFloat?_of_value_eq_zero ((value_ofNat 0).trans Nat.cast_zero)]
    rfl
  · obtain ⟨d, hd, hrounds⟩ := exists_rounds hpos hn
    rw [← value_ofNat n] at hrounds
    rw [toFloat?_eq hd hrounds]
    rfl

end Numeral

end MarketSignals.Decimal
