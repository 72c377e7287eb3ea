import Mathlib.Data.Int.Log
import Mathlib.Data.Rat.Floor
import MarketSignals.Proofs.Decimal.Rounding

/-!
# Rounding as a function

A float arithmetic operation gives the float that is nearest to the exact result, the one
with the even mantissa if two are as near.  Here that float is a function of the exact
result, a rational number: the number is counted in units of the last place that a float of
its size has, and the count is rounded.  No greatest exponent is imposed; a result is out
of range when what it rounds to is `2 ^ 1024` or more.

## Main definitions

* `lastPlace` — the exponent of the last place.
* `rounded` — the number that a number rounds to.
* `overflowPoint` — the least number that is out of range.

## Main results

* `rounded_mono` — rounding keeps the order.
* `rounded_neg` — and does not look at the sign.
* `rounded_value` — a float rounds to itself.
* `abs_rounded_sub_le` — by how much a number is moved.
* `abs_rounded_lt_iff` — which numbers stay in range.
-/

namespace MarketSignals.Rounding

open Decimal (Nearest two_zpow_pos)

/-! ## The nearest whole number -/

/-- The whole number nearest to a number, the even one of two. -/
def nearestWhole (y : ℚ) : ℕ :=
  if y - ⌊y⌋₊ < 1 / 2 then ⌊y⌋₊
  else if 1 / 2 < y - ⌊y⌋₊ then ⌊y⌋₊ + 1
  else ⌊y⌋₊ + ⌊y⌋₊ % 2

theorem nearest_nearestWhole {y : ℚ} (hy : 0 ≤ y) : Nearest (nearestWhole y) y := by
  have hlow : (⌊y⌋₊ : ℚ) ≤ y := Nat.floor_le hy
  have hhigh : y < ⌊y⌋₊ + 1 := Nat.lt_floor_add_one y
  unfold nearestWhole
  split
  next hbelow => exact .of_lt (by linarith) (by linarith)
  next hbelow =>
    split
    next habove =>
      refine .of_lt ?_ ?_
      · push_cast
        linarith
      · push_cast
        linarith
    next habove =>
      have hmiddle : y = ⌊y⌋₊ + 1 / 2 := by linarith
      rcases Nat.mod_two_eq_zero_or_one ⌊y⌋₊ with heven | hodd
      · rw [heven, Nat.add_zero]
        exact ⟨by linarith, by linarith, fun hodd => by omega⟩
      · rw [hodd]
        refine ⟨?_, ?_, fun hodd' => by omega⟩
        · push_cast
          linarith
        · push_cast
          linarith

theorem nearestWhole_eq {n : ℕ} {y : ℚ} (hy : 0 ≤ y) (h : Nearest n y) : nearestWhole y = n :=
  (nearest_nearestWhole hy).unique h

/-- Of two numbers the smaller one is not rounded further up. -/
theorem nearestWhole_mono {y z : ℚ} (hy : 0 ≤ y) (hyz : y ≤ z) :
    nearestWhole y ≤ nearestWhole z := by
  rcases hyz.eq_or_lt with rfl | hlt
  · exact Nat.le_refl _
  · have hy' := (nearest_nearestWhole hy).low
    have hz' := (nearest_nearestWhole (hy.trans hyz)).high
    have hcast : (nearestWhole y : ℚ) < (nearestWhole z + 1 : ℕ) := by
      push_cast
      linarith
    have hcast' : nearestWhole y < nearestWhole z + 1 := by exact_mod_cast hcast
    omega

/-- A whole number is its own nearest. -/
theorem nearestWhole_natCast (n : ℕ) : nearestWhole n = n :=
  nearestWhole_eq (Nat.cast_nonneg n) (.of_lt (by linarith) (by linarith))

/-- Rounding does not go past a whole number. -/
theorem le_nearestWhole {n : ℕ} {y : ℚ} (h : n ≤ y) : n ≤ nearestWhole y :=
  (nearestWhole_natCast n).symm.trans_le (nearestWhole_mono (Nat.cast_nonneg n) h)

theorem nearestWhole_le {n : ℕ} {y : ℚ} (hy : 0 ≤ y) (h : y ≤ n) : nearestWhole y ≤ n :=
  (nearestWhole_mono hy h).trans_eq (nearestWhole_natCast n)

/-! ## The last place -/

/-- The exponent of the last place of a float as large as a number. -/
def lastPlace (q : ℚ) : ℤ := max (Int.log 2 q - 52) (-1074)

theorem least_le_lastPlace (q : ℚ) : -1074 ≤ lastPlace q := le_max_right _ _

/-- The count of units has at most fifty-three bits. -/
theorem units_lt (q : ℚ) : q / 2 ^ lastPlace q < 2 ^ 53 := by
  rw [div_lt_iff₀ (two_zpow_pos _)]
  calc q < 2 ^ (Int.log 2 q + 1) := by
        exact_mod_cast Int.lt_zpow_succ_log_self (b := 2) (by decide) q
    _ ≤ 2 ^ ((53 : ℕ) + lastPlace q) := by
        refine zpow_le_zpow_right₀ (by norm_num) ?_
        unfold lastPlace
        omega
    _ = 2 ^ 53 * 2 ^ lastPlace q := by rw [zpow_add₀ (by norm_num), zpow_natCast]

theorem nearestWhole_units_le {q : ℚ} (hq : 0 ≤ q / 2 ^ lastPlace q) :
    nearestWhole (q / 2 ^ lastPlace q) ≤ 2 ^ 53 :=
  nearestWhole_le hq (by exact_mod_cast (units_lt q).le)

/-- It has all of them unless the exponent is the least one. -/
theorem lastPlace_eq_least_or_le {q : ℚ} (hq : 0 < q) :
    lastPlace q = -1074 ∨ 2 ^ 52 ≤ q / 2 ^ lastPlace q := by
  by_cases hleast : lastPlace q = -1074
  · exact .inl hleast
  right
  have hplace : Int.log 2 q = (52 : ℕ) + lastPlace q := by
    unfold lastPlace at hleast ⊢
    omega
  have hlog : (2 : ℚ) ^ Int.log 2 q ≤ q := by
    exact_mod_cast Int.zpow_log_le_self (b := 2) (by decide) hq
  rw [hplace, zpow_add₀ (by norm_num), zpow_natCast] at hlog
  rwa [le_div_iff₀ (two_zpow_pos _)]

/-- No other exponent leaves the count with the right number of bits. -/
theorem lastPlace_eq {y : ℚ} {t : ℤ} (hpos : 0 < y) (hlt : y < 2 ^ 53) (hleast : -1074 ≤ t)
    (hnormal : t = -1074 ∨ 2 ^ 52 ≤ y) : lastPlace (y * 2 ^ t) = t := by
  have htpos : (0 : ℚ) < 2 ^ t := two_zpow_pos t
  have hhigh : Int.log 2 (y * 2 ^ t) < (53 : ℕ) + t := by
    refine (Int.lt_zpow_iff_log_lt (b := 2) (by decide) (mul_pos hpos htpos)).mp ?_
    push_cast
    rw [zpow_add₀ (by norm_num)]
    exact mul_lt_mul_of_pos_right (by exact_mod_cast hlt) htpos
  rcases hnormal with rfl | hnormal
  · unfold lastPlace
    omega
  · have hlow : (52 : ℕ) + t ≤ Int.log 2 (y * 2 ^ t) := by
      refine (Int.zpow_le_iff_le_log (b := 2) (by decide) (mul_pos hpos htpos)).mp ?_
      push_cast
      rw [zpow_add₀ (by norm_num)]
      exact mul_le_mul_of_nonneg_right (by exact_mod_cast hnormal) htpos.le
    unfold lastPlace
    omega

theorem lastPlace_mono {q r : ℚ} (hq : 0 < q) (hqr : q ≤ r) : lastPlace q ≤ lastPlace r := by
  have hlog : Int.log 2 q ≤ Int.log 2 r := Int.log_mono_right hq hqr
  unfold lastPlace
  omega

/-! ## Magnitudes -/

/-- The number that a magnitude rounds to. -/
def roundedMagnitude (q : ℚ) : ℚ := nearestWhole (q / 2 ^ lastPlace q) * 2 ^ lastPlace q

theorem roundedMagnitude_zero : roundedMagnitude 0 = 0 := by
  have hzero : nearestWhole 0 = 0 :=
    nearestWhole_eq (le_refl 0) (.of_lt (by norm_num) (by norm_num))
  rw [roundedMagnitude, zero_div, hzero, Nat.cast_zero, zero_mul]

theorem roundedMagnitude_nonneg (q : ℚ) : 0 ≤ roundedMagnitude q :=
  mul_nonneg (Nat.cast_nonneg _) (two_zpow_pos _).le

/-- A number that is counted in the right unit rounds to the nearest count. -/
theorem roundedMagnitude_eq {n : ℕ} {y : ℚ} {t : ℤ} (hy : 0 ≤ y) (hlt : y < 2 ^ 53)
    (hleast : -1074 ≤ t) (hnormal : t = -1074 ∨ 2 ^ 52 ≤ y) (hn : Nearest n y) :
    roundedMagnitude (y * 2 ^ t) = n * 2 ^ t := by
  rcases hy.eq_or_lt with rfl | hpos
  · have hzero : n = 0 := hn.unique (.of_lt (by norm_num) (by norm_num))
    rw [zero_mul, roundedMagnitude_zero, hzero, Nat.cast_zero, zero_mul]
  · rw [roundedMagnitude, lastPlace_eq hpos hlt hleast hnormal,
      mul_div_cancel_right₀ _ (two_zpow_pos t).ne', nearestWhole_eq hy hn]

/-- Rounding keeps the order, also from one last place to the next. -/
theorem roundedMagnitude_mono {q r : ℚ} (hq : 0 ≤ q) (hqr : q ≤ r) :
    roundedMagnitude q ≤ roundedMagnitude r := by
  rcases hq.eq_or_lt with rfl | hpos
  · rw [roundedMagnitude_zero]
    exact roundedMagnitude_nonneg r
  have hrpos : 0 < r := hpos.trans_le hqr
  have hunits : 0 ≤ q / 2 ^ lastPlace q := div_nonneg hq (two_zpow_pos _).le
  rcases (lastPlace_mono hpos hqr).eq_or_lt with hplace | hplace
  · unfold roundedMagnitude
    rw [← hplace]
    have hcount : nearestWhole (q / 2 ^ lastPlace q) ≤ nearestWhole (r / 2 ^ lastPlace q) :=
      nearestWhole_mono hunits (div_le_div_of_nonneg_right hqr (two_zpow_pos _).le)
    exact mul_le_mul_of_nonneg_right (by exact_mod_cast hcount) (two_zpow_pos _).le
  · -- the power of two between the two last places separates what they round to
    have hlow : nearestWhole (q / 2 ^ lastPlace q) ≤ 2 ^ 53 := nearestWhole_units_le hunits
    have hnormal : 2 ^ 52 ≤ r / 2 ^ lastPlace r := by
      refine (lastPlace_eq_least_or_le hrpos).resolve_left ?_
      have hleast := least_le_lastPlace q
      omega
    have hhigh : 2 ^ 52 ≤ nearestWhole (r / 2 ^ lastPlace r) :=
      le_nearestWhole (by exact_mod_cast hnormal)
    calc roundedMagnitude q ≤ 2 ^ 53 * 2 ^ lastPlace q :=
          mul_le_mul_of_nonneg_right (by exact_mod_cast hlow) (two_zpow_pos _).le
      _ = 2 ^ 52 * 2 ^ (lastPlace q + 1) := by
          rw [zpow_add_one₀ (by norm_num)]
          ring
      _ ≤ 2 ^ 52 * 2 ^ lastPlace r := by
          refine mul_le_mul_of_nonneg_left ?_ (by norm_num)
          exact zpow_le_zpow_right₀ (by norm_num) hplace
      _ ≤ roundedMagnitude r :=
          mul_le_mul_of_nonneg_right (by exact_mod_cast hhigh) (two_zpow_pos _).le

/-! ## Rounding -/

/-- The number that a number rounds to. -/
def rounded (q : ℚ) : ℚ := if 0 ≤ q then roundedMagnitude q else -roundedMagnitude (-q)

theorem rounded_of_nonneg {q : ℚ} (hq : 0 ≤ q) : rounded q = roundedMagnitude q := if_pos hq

@[simp] theorem rounded_zero : rounded 0 = 0 := by
  rw [rounded_of_nonneg (le_refl 0), roundedMagnitude_zero]

@[simp] theorem rounded_neg (q : ℚ) : rounded (-q) = -rounded q := by
  rcases lt_trichotomy q 0 with hq | rfl | hq
  · rw [rounded_of_nonneg (by linarith), rounded, if_neg (not_le.mpr hq), neg_neg]
  · simp
  · rw [rounded_of_nonneg hq.le, rounded, if_neg (not_le.mpr (by linarith)), neg_neg]

theorem abs_rounded (q : ℚ) : |rounded q| = roundedMagnitude |q| := by
  rcases le_total 0 q with hq | hq
  · rw [rounded_of_nonneg hq, abs_of_nonneg (roundedMagnitude_nonneg q), abs_of_nonneg hq]
  · rw [← abs_neg, ← rounded_neg, rounded_of_nonneg (neg_nonneg.mpr hq),
      abs_of_nonneg (roundedMagnitude_nonneg _), abs_of_nonpos hq]

theorem rounded_nonneg {q : ℚ} (hq : 0 ≤ q) : 0 ≤ rounded q := by
  rw [rounded_of_nonneg hq]
  exact roundedMagnitude_nonneg q

/-- Rounding keeps the order. -/
theorem rounded_mono : Monotone rounded := by
  intro q r hqr
  rcases le_total 0 q with hq | hq
  · rw [rounded_of_nonneg hq, rounded_of_nonneg (hq.trans hqr)]
    exact roundedMagnitude_mono hq hqr
  · rcases le_total 0 r with hr | hr
    · have hneg : 0 ≤ rounded (-q) := rounded_nonneg (neg_nonneg.mpr hq)
      rw [rounded_neg] at hneg
      linarith [rounded_nonneg hr]
    · have hmono := roundedMagnitude_mono (neg_nonneg.mpr hr) (neg_le_neg hqr)
      rw [← rounded_of_nonneg (neg_nonneg.mpr hr), ← rounded_of_nonneg (neg_nonneg.mpr hq),
        rounded_neg, rounded_neg] at hmono
      linarith

/-- A number that is counted in the right unit rounds to the nearest count. -/
theorem rounded_eq {n : ℕ} {y : ℚ} {t : ℤ} (hy : 0 ≤ y) (hlt : y < 2 ^ 53)
    (hleast : -1074 ≤ t) (hnormal : t = -1074 ∨ 2 ^ 52 ≤ y) (hn : Nearest n y) :
    rounded (y * 2 ^ t) = n * 2 ^ t := by
  rw [rounded_of_nonneg (mul_nonneg hy (two_zpow_pos t).le),
    roundedMagnitude_eq hy hlt hleast hnormal hn]

/-- A float rounds to itself. -/
theorem rounded_value {d : Decimal.Dyadic} (hd : d.Canonical) : rounded d.value = d.value := by
  refine rounded_eq (Nat.cast_nonneg _) (by exact_mod_cast hd.lt) hd.least ?_
    (.of_lt (by linarith) (by linarith))
  rcases hd.normal with hnormal | hleast
  · exact .inr (by exact_mod_cast hnormal)
  · exact .inl hleast

/-! ## The error of rounding -/

/-- Rounding moves a number by half a unit of its last place at most. -/
theorem abs_rounded_sub_le {q : ℚ} (hq : 0 ≤ q) : |rounded q - q| ≤ 2 ^ (lastPlace q - 1) := by
  have hunit : (0 : ℚ) < 2 ^ lastPlace q := two_zpow_pos _
  have hnearest := nearest_nearestWhole (div_nonneg hq hunit.le)
  have hvalue : q = q / 2 ^ lastPlace q * 2 ^ lastPlace q := (div_mul_cancel₀ q hunit.ne').symm
  have hlow := hnearest.low
  have hhigh := hnearest.high
  rw [rounded_of_nonneg hq, roundedMagnitude, zpow_sub_one₀ (by norm_num)]
  generalize (nearestWhole (q / 2 ^ lastPlace q) : ℚ) = n at hlow hhigh ⊢
  generalize q / 2 ^ lastPlace q = units at hvalue hlow hhigh
  generalize (2 : ℚ) ^ lastPlace q = unit at hunit hvalue
  rw [hvalue, ← sub_mul, abs_mul, abs_of_pos hunit, mul_comm unit]
  refine mul_le_mul_of_nonneg_right ?_ hunit.le
  rw [abs_le]
  exact ⟨by linarith, by linarith⟩

/-- That is a small part of the number unless the last place is the least one. -/
theorem half_unit_le {q : ℚ} (hq : 0 < q) (h : lastPlace q ≠ -1074) :
    2 ^ (lastPlace q - 1) ≤ q * 2 ^ (-53 : ℤ) := by
  have hunit : (0 : ℚ) < 2 ^ lastPlace q := two_zpow_pos _
  have hnormal := (lastPlace_eq_least_or_le hq).resolve_left h
  rw [le_div_iff₀ hunit] at hnormal
  calc (2 : ℚ) ^ (lastPlace q - 1) = 2 ^ 52 * 2 ^ lastPlace q * 2 ^ (-53 : ℤ) := by
        rw [zpow_sub_one₀ (by norm_num)]
        generalize (2 : ℚ) ^ lastPlace q = unit
        norm_num
        ring
    _ ≤ q * 2 ^ (-53 : ℤ) := mul_le_mul_of_nonneg_right hnormal (by positivity)

/-! ## The range of floats -/

/-- The least number that is out of range, in the middle between the greatest float and
`2 ^ 1024`. -/
def overflowPoint : ℚ := 2 ^ 1024 - 2 ^ 970

theorem two_pow_1024 : (2 : ℚ) ^ 1024 = 2 ^ 53 * 2 ^ (971 : ℤ) := by
  rw [show (971 : ℤ) = (971 : ℕ) from rfl, zpow_natCast, ← pow_add]

theorem overflowPoint_eq : overflowPoint = (2 ^ 53 - 1 / 2) * 2 ^ (971 : ℤ) := by
  have hstep : (2 : ℚ) ^ (971 : ℤ) = 2 * 2 ^ 970 := by
    rw [show (971 : ℤ) = (971 : ℕ) from rfl, zpow_natCast, ← pow_succ']
  rw [overflowPoint, two_pow_1024, sub_mul, hstep]
  generalize (2 : ℚ) ^ 970 = u
  ring

theorem overflowPoint_pos : 0 < overflowPoint := by
  rw [overflowPoint_eq]
  exact mul_pos (by norm_num) (two_zpow_pos _)

theorem lastPlace_overflowPoint : lastPlace overflowPoint = 971 := by
  rw [overflowPoint_eq]
  exact lastPlace_eq (by norm_num) (by norm_num) (by norm_num) (.inr (by norm_num))

theorem rounded_overflowPoint : rounded overflowPoint = 2 ^ 1024 := by
  rw [overflowPoint_eq, two_pow_1024, rounded_eq (n := 2 ^ 53) (by norm_num) (by norm_num)
    (by norm_num) (.inr (by norm_num))
    ⟨by norm_num, by norm_num, fun hodd => absurd hodd (by decide)⟩]
  norm_num

/-- What is below the middle has a smaller last place, or a smaller count. -/
theorem roundedMagnitude_lt {q : ℚ} (hpos : 0 < q) (h : q < overflowPoint) :
    roundedMagnitude q < 2 ^ 1024 := by
  have hunits : 0 ≤ q / 2 ^ lastPlace q := div_nonneg hpos.le (two_zpow_pos _).le
  have hplace : lastPlace q ≤ 971 := (lastPlace_mono hpos h.le).trans_eq lastPlace_overflowPoint
  rw [roundedMagnitude, two_pow_1024]
  rcases hplace.lt_or_eq with hlt | heq
  · have hcount : (nearestWhole (q / 2 ^ lastPlace q) : ℚ) ≤ 2 ^ 53 := by
      exact_mod_cast nearestWhole_units_le hunits
    have hpower : (2 : ℚ) ^ lastPlace q < 2 ^ (971 : ℤ) := zpow_lt_zpow_right₀ (by norm_num) hlt
    exact mul_lt_mul_of_le_of_lt_of_nonneg_of_pos hcount hpower (two_zpow_pos _).le (by norm_num)
  · rw [heq] at hunits ⊢
    have hbelow : q / 2 ^ (971 : ℤ) < 2 ^ 53 - 1 / 2 := by
      rw [div_lt_iff₀ (two_zpow_pos _), ← overflowPoint_eq]
      exact h
    have hlow := (nearest_nearestWhole hunits).low
    exact mul_lt_mul_of_pos_right (by linarith) (two_zpow_pos _)

/-- What rounds to less than `2 ^ 1024` lies below the middle. -/
theorem rounded_lt_iff (q : ℚ) : rounded q < 2 ^ 1024 ↔ q < overflowPoint := by
  constructor
  · intro h
    by_contra hq
    have hmono := rounded_mono (not_lt.mp hq)
    rw [rounded_overflowPoint] at hmono
    exact absurd h (not_lt.mpr hmono)
  · intro h
    rcases lt_or_ge 0 q with hpos | hneg
    · rw [rounded_of_nonneg hpos.le]
      exact roundedMagnitude_lt hpos h
    · have hmono := rounded_mono hneg
      rw [rounded_zero] at hmono
      exact hmono.trans_lt (by positivity)

/-- On either side of zero. -/
theorem abs_rounded_lt_iff (q : ℚ) : |rounded q| < 2 ^ 1024 ↔ |q| < overflowPoint := by
  rw [abs_rounded, ← rounded_of_nonneg (abs_nonneg q), rounded_lt_iff]

end MarketSignals.Rounding
