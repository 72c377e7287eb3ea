import Mathlib.Data.Nat.Cast.Order.Field
import MarketSignals.Decimal.Digits
import MarketSignals.Proofs.Decimal.Rounding

/-!
# The shortest digits read back

The digits that are chosen for a float lie in its interval, so reading them rounds to the
float again.  That there are such digits is shown for seventeen of them: their unit is less
than the width of the interval on either side.

## Main definitions

* `Digits.value` — the exact value of decimal digits.

## Main results

* `owns_iff` — the test in whole numbers is the one in rationals.
* `Dyadic.rounds_shortest` — the chosen digits round to the float.
-/

namespace MarketSignals.Decimal

/-! ## Values -/

/-- The exact value of decimal digits. -/
def Digits.value (d : Digits) : ℚ := d.coefficient * 10 ^ d.exponent

/-- A power whose exponent may be negative, as a quotient of powers of naturals. -/
theorem pow_toNat {b : ℚ} (hb : b ≠ 0) (z : ℤ) : b ^ z.toNat = b ^ z * b ^ (-z).toNat := by
  rw [← zpow_natCast, ← zpow_natCast, ← zpow_add₀ hb]
  congr 1
  omega

/-- Zeros that are dropped go into the exponent. -/
theorem value_trimmed (fuel : ℕ) (d : Digits) : (d.trimmed fuel).value = d.value := by
  induction fuel generalizing d with
  | zero => rfl
  | succ fuel ih =>
      unfold Digits.trimmed
      split
      next h =>
        rw [ih]
        have hten : (d.coefficient : ℚ) = (d.coefficient / 10 : ℕ) * 10 := by
          exact_mod_cast (Nat.div_mul_cancel (Nat.dvd_of_mod_eq_zero h.2)).symm
        unfold Digits.value
        rw [hten, zpow_add_one₀ (by norm_num)]
        simp only
        ring
      · rfl

/-! ## The interval in whole numbers -/

section Scale

variable (x : Dyadic) (d : Digits)

/-- What both sides of a comparison are multiplied with to make them whole. -/
def clearing : ℚ := 2 ^ (-(x.exponent - 2)).toNat * 10 ^ (-d.exponent).toNat

theorem clearing_pos : 0 < clearing x d := by
  unfold clearing
  positivity

/-- A bound that is counted in quarters, made whole. -/
theorem cast_scale (n : ℕ) :
    ((n * 2 ^ (x.exponent - 2).toNat * 10 ^ (-d.exponent).toNat : ℕ) : ℚ) * 4 =
      n * 2 ^ x.exponent * clearing x d := by
  unfold clearing
  push_cast
  rw [pow_toNat (by norm_num) (x.exponent - 2), zpow_sub₀ (by norm_num)]
  ring

theorem cast_value :
    ((d.coefficient * 10 ^ d.exponent.toNat * 2 ^ (-(x.exponent - 2)).toNat : ℕ) : ℚ) =
      d.value * clearing x d := by
  unfold clearing Digits.value
  push_cast
  rw [pow_toNat (by norm_num) d.exponent]
  ring

theorem scale_le_iff (n : ℕ) :
    n * 2 ^ (x.exponent - 2).toNat * 10 ^ (-d.exponent).toNat ≤
        d.coefficient * 10 ^ d.exponent.toNat * 2 ^ (-(x.exponent - 2)).toNat ↔
      n * 2 ^ x.exponent ≤ 4 * d.value := by
  rw [← Nat.cast_le (α := ℚ), cast_value, ← mul_le_mul_iff_left₀ (show (0 : ℚ) < 4 by norm_num),
    cast_scale, mul_right_comm d.value, mul_le_mul_iff_left₀ (clearing_pos x d), mul_comm d.value]

theorem le_scale_iff (n : ℕ) :
    d.coefficient * 10 ^ d.exponent.toNat * 2 ^ (-(x.exponent - 2)).toNat ≤
        n * 2 ^ (x.exponent - 2).toNat * 10 ^ (-d.exponent).toNat ↔
      4 * d.value ≤ n * 2 ^ x.exponent := by
  rw [← Nat.cast_le (α := ℚ), cast_value, ← mul_le_mul_iff_left₀ (show (0 : ℚ) < 4 by norm_num),
    cast_scale, mul_right_comm d.value, mul_le_mul_iff_left₀ (clearing_pos x d), mul_comm d.value]

end Scale

theorem cast_below (x : Dyadic) :
    ((if x.mantissa = normalMantissa ∧ x.exponent ≠ leastExponent then 1 else 2 : ℕ) : ℚ) =
      x.below := by
  have hmantissa : normalMantissa = 2 ^ 52 := rfl
  have hexponent : leastExponent = -1074 := rfl
  unfold Dyadic.below
  rw [hmantissa, hexponent]
  split <;> rfl

/-- The test in whole numbers decides which decimals round to a float. -/
theorem owns_iff {x : Dyadic} (hx : x.Canonical) (d : Digits) :
    x.owns d = true ↔ x.Rounds d.value := by
  obtain ⟨below, hbelow⟩ : ∃ below : ℕ,
      below = if x.mantissa = normalMantissa ∧ x.exponent ≠ leastExponent then 1 else 2 :=
    ⟨_, rfl⟩
  have hle : below ≤ 4 * x.mantissa := by
    have hpos := hx.pos
    have htwo : below ≤ 2 := by
      rw [hbelow]
      split <;> decide
    omega
  have hlow : ((4 * x.mantissa - below : ℕ) : ℚ) = 4 * x.mantissa - x.below := by
    rw [Nat.cast_sub hle, ← cast_below, ← hbelow]
    push_cast
    rfl
  have hhigh : ((4 * x.mantissa + 2 : ℕ) : ℚ) = 4 * x.mantissa + 2 := by
    push_cast
    rfl
  unfold Dyadic.owns
  simp only [← hbelow, Nat.pow_eq]
  split
  next heven =>
    rw [Bool.and_eq_true, decide_eq_true_iff, decide_eq_true_iff, scale_le_iff, le_scale_iff,
      hlow, hhigh]
    exact ⟨fun h => ⟨h.1, h.2, fun hodd => by omega⟩, fun h => ⟨h.low, h.high⟩⟩
  next hodd =>
    rw [Bool.and_eq_true, decide_eq_true_iff, decide_eq_true_iff, ← Nat.not_le, ← Nat.not_le,
      scale_le_iff, le_scale_iff, hlow, hhigh, not_le, not_le]
    exact ⟨fun h => ⟨h.1.le, h.2.le, fun _ => h⟩, fun h => h.odd (by omega)⟩

/-! ## Seventeen digits -/

/-- A number nearer to a float than the next one is on either side rounds to it. -/
theorem Dyadic.rounds_of_near {x : Dyadic} {q : ℚ}
    (hlow : 4 * (x.value - q) < x.below * 2 ^ x.exponent)
    (hhigh : 2 * (q - x.value) < 2 ^ x.exponent) : x.Rounds q := by
  unfold Dyadic.value at hlow hhigh
  have hlow' : (4 * x.mantissa - x.below) * 2 ^ x.exponent < 4 * q := by linarith
  have hhigh' : 4 * q < (4 * x.mantissa + 2) * 2 ^ x.exponent := by linarith
  exact ⟨hlow'.le, hhigh'.le, fun _ => ⟨hlow', hhigh'⟩⟩

theorem value_quotient (x : Dyadic) : (x.quotient.1 : ℚ) / x.quotient.2 = x.value := by
  unfold Dyadic.quotient Dyadic.value
  simp only [Nat.pow_eq]
  push_cast
  rw [pow_toNat (by norm_num) x.exponent]
  field_simp

theorem value_inUnits (num den : ℕ) (place : ℤ) :
    ((inUnits num den place).1 : ℚ) / (inUnits num den place).2 * 10 ^ place = num / den := by
  unfold inUnits
  simp only [Nat.pow_eq]
  push_cast
  rw [pow_toNat (by norm_num) place]
  field_simp

theorem digitCount_pos (n : ℕ) : 0 < digitCount n := List.length_pos_iff.mpr Nat.toDigits_ne_nil

/-- A natural has at least as many digits as its leading power of ten asks for. -/
theorem pow_digitCount_le {n : ℕ} (hn : 0 < n) : 10 ^ (digitCount n - 1) ≤ n := by
  by_contra hlt
  have hpos := digitCount_pos n
  by_cases hone : digitCount n - 1 = 0
  · rw [hone] at hlt
    omega
  · have hle : digitCount n ≤ digitCount n - 1 :=
      (Nat.length_toDigits_le_iff (by decide) (Nat.pos_of_ne_zero hone)).mpr (by omega)
    omega

/-- A natural is less than the power of ten with one more digit. -/
theorem lt_pow_digitCount (n : ℕ) : n < 10 ^ digitCount n :=
  (Nat.length_toDigits_le_iff (by decide) (digitCount_pos n)).mp
    (Nat.le_refl _)

/-- The power of ten of the leading digit is not above the quotient. -/
theorem pow_leadingExponent_le {num den : ℕ} (hnum : 0 < num) (hden : 0 < den) :
    (10 : ℚ) ^ leadingExponent num den ≤ num / den := by
  have hnum' : (0 : ℚ) < num := by exact_mod_cast hnum
  have hden' : (0 : ℚ) < den := by exact_mod_cast hden
  unfold leadingExponent
  split
  next hle =>
    have hquotient : 0 < num / den := Nat.div_pos hle hden
    have hcount := digitCount_pos (num / den)
    have hexponent : (digitCount (num / den) : ℤ) - 1 = (digitCount (num / den) - 1 : ℕ) := by
      omega
    rw [hexponent, zpow_natCast]
    calc (10 : ℚ) ^ (digitCount (num / den) - 1) ≤ (num / den : ℕ) := by
          exact_mod_cast pow_digitCount_le hquotient
      _ ≤ num / den := Nat.cast_div_le
  next hlt =>
    -- the inverse, rounded up, has fewer digits than the power
    have hceiling : den ≤ (den + num - 1) / num * num := by
      have := Nat.lt_div_mul_add (a := den + num - 1) hnum
      omega
    have hpow : (den + num - 1) / num ≤ 10 ^ digitCount ((den + num - 1) / num - 1) := by
      have := lt_pow_digitCount ((den + num - 1) / num - 1)
      omega
    rw [zpow_neg, zpow_natCast, le_div_iff₀ hden', inv_mul_le_iff₀ (by positivity)]
    calc (den : ℚ) ≤ ((den + num - 1) / num : ℕ) * num := by exact_mod_cast hceiling
      _ ≤ 10 ^ digitCount ((den + num - 1) / num - 1) * num :=
        mul_le_mul_of_nonneg_right (by exact_mod_cast hpow) hnum'.le

/-- The unit of seventeen digits is less than the width of the interval below a float, which
is the lesser one. -/
theorem unit_lt {x : Dyadic} (hx : x.Canonical) {p : ℚ} (hp : p * 10 ^ 16 ≤ x.value) :
    2 * p < x.below * 2 ^ x.exponent := by
  have hpos := two_zpow_pos x.exponent
  have hmantissa : 2 * (x.mantissa : ℚ) < x.below * 10 ^ 16 := by
    have hlt : (x.mantissa : ℚ) < 2 ^ 53 := by exact_mod_cast hx.lt
    by_cases hpower : x.mantissa = 2 ^ 52
    · have hbelow : 1 ≤ x.below := by
        unfold Dyadic.below
        split <;> norm_num
      rw [hpower]
      push_cast
      linarith
    · rw [Dyadic.below_eq_two hpower]
      linarith
  unfold Dyadic.value at hp
  have := mul_lt_mul_of_pos_right hmantissa hpos
  linarith


/-! ## The two decimals next to a float -/

/-- The unit of the last of so many digits. -/
def Dyadic.place (x : Dyadic) (count : ℕ) : ℤ :=
  leadingExponent x.quotient.1 x.quotient.2 - count + 1

/-- The decimal of so many digits that is next below a float, or equal to it. -/
def Dyadic.truncated (x : Dyadic) (count : ℕ) : Digits :=
  let (num, den) := inUnits x.quotient.1 x.quotient.2 (x.place count)
  ⟨num / den, x.place count⟩

/-- The next decimal with the same unit. -/
def Digits.next (d : Digits) : Digits := ⟨d.coefficient + 1, d.exponent⟩

theorem value_next (d : Digits) : d.next.value = d.value + 10 ^ d.exponent := by
  unfold Digits.next Digits.value
  push_cast
  ring

/-- What is found for so many digits reads back. -/
theorem owns_of_shortestOf {x : Dyadic} {tie : Tie} {count : ℕ} {d : Digits}
    (h : x.shortestOf tie count = some d) : x.owns d = true := by
  unfold Dyadic.shortestOf at h
  simp only at h
  split at h
  next hfloor hceiling =>
    have hchosen : ∀ upper : Bool, x.owns (if upper then (x.truncated count).next
        else x.truncated count) = true := by
      intro upper
      cases upper with
      | false => exact hfloor
      | true => exact hceiling
    rw [← Option.some.inj h]
    exact hchosen _
  next hfloor _ =>
    cases h
    exact hfloor
  next _ hceiling =>
    cases h
    exact hceiling
  next => cases h

/-- Where nothing is found, neither of the two decimals next to the float reads back. -/
theorem owns_eq_false_of_shortestOf {x : Dyadic} {tie : Tie} {count : ℕ}
    (h : x.shortestOf tie count = none) :
    x.owns (x.truncated count) = false ∧ x.owns (x.truncated count).next = false := by
  unfold Dyadic.shortestOf at h
  simp only at h
  split at h
  · cases h
  · cases h
  · cases h
  next hfloor hceiling => exact ⟨hfloor, hceiling⟩

theorem quotient_pos {x : Dyadic} (hx : x.Canonical) :
    0 < x.quotient.1 ∧ 0 < x.quotient.2 :=
  ⟨Nat.mul_pos hx.pos (Nat.two_pow_pos _), Nat.two_pow_pos _⟩

/-- A float lies between the two decimals. -/
theorem truncated_le {x : Dyadic} (count : ℕ) :
    (x.truncated count).value ≤ x.value ∧ x.value < (x.truncated count).next.value := by
  have hunit : (0 : ℚ) < 10 ^ x.place count := zpow_pos (by norm_num) _
  have hvalue := value_inUnits x.quotient.1 x.quotient.2 (x.place count)
  rw [value_quotient] at hvalue
  obtain ⟨num, den, hunits⟩ : ∃ num den,
      inUnits x.quotient.1 x.quotient.2 (x.place count) = (num, den) := ⟨_, _, rfl⟩
  have hden : 0 < den := by
    have : den = x.quotient.2 * 10 ^ (x.place count).toNat := (congrArg Prod.snd hunits).symm
    rw [this]
    exact Nat.mul_pos (Nat.two_pow_pos _) (by positivity)
  have hfloor : x.truncated count = ⟨num / den, x.place count⟩ := by
    unfold Dyadic.truncated
    rw [hunits]
  rw [hunits] at hvalue
  rw [value_next, hfloor, ← hvalue]
  unfold Digits.value
  constructor
  · exact mul_le_mul_of_nonneg_right Nat.cast_div_le hunit.le
  · have hlt : (num : ℚ) / den < (num / den : ℕ) + 1 := by
      rw [div_lt_iff₀ (by exact_mod_cast hden)]
      have := Nat.lt_mul_div_succ num hden
      rw [mul_comm] at this
      exact_mod_cast this
    have := mul_lt_mul_of_pos_right hlt hunit
    simp only
    linarith

/-- One of the two decimals of seventeen digits next to a float lies in its interval. -/
theorem isSome_shortestOf {x : Dyadic} (hx : x.Canonical) (tie : Tie) :
    (x.shortestOf tie 17).isSome := by
  obtain ⟨p, hp⟩ : ∃ p : ℚ, p = 10 ^ x.place 17 := ⟨_, rfl⟩
  have hunit : 2 * p < x.below * 2 ^ x.exponent := by
    refine unit_lt hx ?_
    have hleading := pow_leadingExponent_le (quotient_pos hx).1 (quotient_pos hx).2
    rw [value_quotient] at hleading
    have hexponent : leadingExponent x.quotient.1 x.quotient.2 = x.place 17 + (16 : ℕ) := by
      unfold Dyadic.place
      omega
    rwa [hexponent, zpow_add₀ (by norm_num), zpow_natCast, ← hp] at hleading
  have hbelow : x.below * 2 ^ x.exponent ≤ 2 * 2 ^ x.exponent :=
    mul_le_mul_of_nonneg_right x.below_le (two_zpow_pos _).le
  obtain ⟨hle, hlt⟩ := truncated_le (x := x) 17
  have hnext : (x.truncated 17).next.value = (x.truncated 17).value + p := by
    rw [hp]
    exact value_next _
  rw [hnext] at hlt
  by_contra hnone
  obtain ⟨hfloor, hceiling⟩ := owns_eq_false_of_shortestOf (Option.not_isSome_iff_eq_none.mp hnone)
  -- the nearer of the two is at most half a unit away
  rcases le_total (2 * (x.value - (x.truncated 17).value)) p with hnear | hnear
  · have howns := (owns_iff hx _).mpr (x.rounds_of_near (q := (x.truncated 17).value)
      (by linarith) (by linarith))
    rw [hfloor] at howns
    cases howns
  · have howns := (owns_iff hx _).mpr (x.rounds_of_near (q := (x.truncated 17).next.value)
      (by linarith) (by linarith))
    rw [hceiling] at howns
    cases howns

/-- The chosen digits round to the float. -/
theorem Dyadic.rounds_shortest {x : Dyadic} (hx : x.Canonical) (tie : Tie) :
    x.Rounds (x.shortest tie).value := by
  unfold Dyadic.shortest
  rw [value_trimmed]
  have hfound : ((List.range 17).findSome? fun n => x.shortestOf tie (n + 1)).isSome :=
    List.findSome?_isSome_iff.mpr ⟨16, by simp, isSome_shortestOf hx tie⟩
  obtain ⟨d, hd⟩ := Option.isSome_iff_exists.mp hfound
  obtain ⟨n, -, hn⟩ := List.exists_of_findSome?_eq_some hd
  rw [hd]
  exact (owns_iff hx d).mp (owns_of_shortestOf hn)

end MarketSignals.Decimal
