import Mathlib.Analysis.SpecialFunctions.Log.Basic
import MarketSignals.Scalar

/-!
# Exact arithmetic

The recurrences read with real numbers, where nothing is rounded and every number is finite.
The integer power that they take by repeated squaring is the power there.

## Main results

* `power_eq` — repeated squaring gives the power.
-/

namespace MarketSignals.Exact

/-- Exact arithmetic. -/
noncomputable scoped instance : Scalar ℝ where
  ofCount n := n
  abs x := |x|
  isFinite _ := true
  ln := Real.log
  decLt := inferInstance
  decLe := inferInstance

/-- The zero of the recurrences is the number. -/
@[simp] theorem zero_eq : @OfNat.ofNat ℝ (nat_lit 0) (Scalar.instOfNat (nat_lit 0)) = (0 : ℝ) :=
  Nat.cast_zero

/-- So is the one. -/
@[simp] theorem one_eq : @OfNat.ofNat ℝ (nat_lit 1) (Scalar.instOfNat (nat_lit 1)) = (1 : ℝ) :=
  Nat.cast_one

/-- Every round squares the base and halves the count, and the odd counts are multiplied
in. -/
theorem powerLoop_eq {rounds count : ℕ} (base acc : ℝ) (h : count < 2 ^ rounds) :
    Scalar.powerLoop rounds base count acc = acc * base ^ count := by
  induction rounds generalizing count base acc with
  | zero =>
      obtain rfl : count = 0 := by omega
      rw [Scalar.powerLoop, pow_zero, mul_one]
  | succ rounds ih =>
      have hodd : (if count % 2 = 1 then acc * base else acc) = acc * base ^ (count % 2) := by
        rcases Nat.mod_two_eq_zero_or_one count with heven | hodd
        · rw [heven, if_neg (by decide), pow_zero, mul_one]
        · rw [hodd, if_pos rfl, pow_one]
      have hpow : acc * base ^ (count % 2) * (base * base) ^ (count / 2) = acc * base ^ count := by
        rw [← pow_two, ← pow_mul, mul_assoc, ← pow_add, Nat.mod_add_div]
      unfold Scalar.powerLoop
      simp only [hodd]
      split
      next hlast => rw [← hpow, hlast, pow_zero, mul_one]
      next hmore => rw [ih _ _ (by omega), hpow]

/-- Repeated squaring gives the power. -/
theorem power_eq (base : ℝ) {exponent : ℤ} (h : exponent.natAbs < 2 ^ 32) :
    Scalar.power base exponent = base ^ exponent := by
  have hloop := powerLoop_eq base 1 h
  rw [one_mul] at hloop
  unfold Scalar.power
  simp only [one_eq, hloop]
  split
  next hneg =>
    rw [one_div, ← zpow_natCast, ← zpow_neg]
    congr 1
    omega
  next hnonneg =>
    rw [← zpow_natCast]
    congr 1
    omega

end MarketSignals.Exact
