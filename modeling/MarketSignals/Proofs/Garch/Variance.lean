import MarketSignals.Proofs.Float.Arithmetic
import MarketSignals.Proofs.Garch.Reach

/-!
# The variance as a number

Accepted parameters, read as numbers, are what the recurrence asks for: the constant is
positive, and the weights are not negative and sum to less than one, although the check
sees their sum only after it is rounded.  A step adds two terms that are not negative to
the constant.  Rounding keeps the order, so the next variance is at least the constant.

## Main results

* `Params.Accepted.rounded_sum_lt_one`, `Params.Accepted.sum_lt_one` — the weights.
* `omega_le_step` — one step.
* `State.Reached.variance` — every state.
-/

namespace MarketSignals.Garch

open Rounding (value rounded RoundsTo roundsTo_add roundsTo_mul isFinite_of_add isFinite_of_mul
  rounded_value_eq rounded_mono le_iff_value not_lt_zero_iff not_le_zero_iff value_one)

variable {p : Params Float} {v r : Float}

/-! ## Accepted parameters as numbers -/

namespace Params.Accepted

theorem omega_value_pos (hp : p.Accepted) : 0 < value p.omega :=
  (not_le_zero_iff hp.omega_finite).mp hp.omega_pos

theorem alpha_value_nonneg (hp : p.Accepted) : 0 ≤ value p.alpha :=
  (not_lt_zero_iff hp.alpha_finite).mp hp.alpha_nonneg

theorem beta_value_nonneg (hp : p.Accepted) : 0 ≤ value p.beta :=
  (not_lt_zero_iff hp.beta_finite).mp hp.beta_nonneg

/-- The weights sum to less than one before the sum is rounded as well. -/
theorem rounded_sum_lt_one (hp : p.Accepted) : rounded (value p.alpha + value p.beta) < 1 := by
  have hone : (1 : Float).isFinite = true := rfl
  have hsum := roundsTo_add hp.alpha_finite hp.beta_finite
  cases hsum with
  | finite hfinite _ hvalue =>
      have h := mt (le_iff_value hone hfinite).mpr hp.stationary
      rwa [value_one, not_le, hvalue] at h
  | infinite s hs hlarge =>
      -- a sum that is not negative can only be too large, and is not less than one then
      have hnonneg := add_nonneg hp.alpha_value_nonneg hp.beta_value_nonneg
      cases s with
      | negative =>
          have hpos := hlarge.trans_lt' Rounding.overflowPoint_pos
          rw [Rounding.signed] at hpos
          linarith
      | positive => exact absurd (Rounding.le_infinity hone hs) hp.stationary

theorem sum_lt_one (hp : p.Accepted) : value p.alpha + value p.beta < 1 := by
  by_contra hge
  have hle := rounded_mono (not_lt.mp hge)
  rw [← value_one, rounded_value_eq rfl, value_one] at hle
  exact absurd hp.rounded_sum_lt_one (not_lt.mpr hle)

/-- The weight of the last variance is at most the float next to one. -/
theorem beta_value_le (hp : p.Accepted) : value p.beta ≤ 1 - 2 ^ (-53 : ℤ) := by
  refine Rounding.value_le_of_lt_one hp.beta_finite ?_
  calc value p.beta = rounded (value p.beta) := (rounded_value_eq hp.beta_finite).symm
    _ ≤ rounded (value p.alpha + value p.beta) :=
      rounded_mono (le_add_of_nonneg_left hp.alpha_value_nonneg)
    _ < 1 := hp.rounded_sum_lt_one

end Params.Accepted

/-! ## One step -/

/-- A squared return with a weight is not negative: the second factor has the sign of the
first product. -/
theorem shock_value_nonneg (hp : p.Accepted) (h : (p.alpha * r * r).isFinite = true) :
    0 ≤ value (p.alpha * r * r) := by
  obtain ⟨hfirst, hr⟩ := isFinite_of_mul h
  have hweight := hp.alpha_value_nonneg
  rw [(roundsTo_mul hfirst hr).value_eq h]
  refine Rounding.rounded_nonneg ?_
  rw [(roundsTo_mul hp.alpha_finite hr).value_eq hfirst]
  rcases le_total 0 (value r) with hpos | hneg
  · exact mul_nonneg (Rounding.rounded_nonneg (mul_nonneg hweight hpos)) hpos
  · refine mul_nonneg_of_nonpos_of_nonpos ?_ hneg
    rw [← Rounding.rounded_zero]
    exact rounded_mono (mul_nonpos_of_nonneg_of_nonpos hweight hneg)

/-- A return only adds to the constant. -/
theorem omega_le_shocked (hp : p.Accepted)
    (h : (p.omega + p.alpha * r * r).isFinite = true) :
    value p.omega ≤ value (p.omega + p.alpha * r * r) := by
  obtain ⟨-, hshock⟩ := isFinite_of_add h
  calc value p.omega = rounded (value p.omega) := (rounded_value_eq hp.omega_finite).symm
    _ ≤ rounded (value p.omega + value (p.alpha * r * r)) :=
      rounded_mono (le_add_of_nonneg_right (shock_value_nonneg hp hshock))
    _ = value (p.omega + p.alpha * r * r) :=
      ((roundsTo_add hp.omega_finite hshock).value_eq h).symm

/-- The next variance is at least the constant. -/
theorem omega_le_step (hp : p.Accepted) (hv : 0 ≤ value v)
    (h : (p.step v r).isFinite = true) : value p.omega ≤ value (p.step v r) := by
  have hstep : (p.omega + p.alpha * r * r + p.beta * v).isFinite = true := h
  obtain ⟨hshocked, hkept⟩ := isFinite_of_add hstep
  have hkeptNonneg : 0 ≤ value (p.beta * v) := by
    obtain ⟨-, hvFinite⟩ := isFinite_of_mul hkept
    rw [(roundsTo_mul hp.beta_finite hvFinite).value_eq hkept]
    exact Rounding.rounded_nonneg (mul_nonneg hp.beta_value_nonneg hv)
  calc value p.omega ≤ value (p.omega + p.alpha * r * r) := omega_le_shocked hp hshocked
    _ = rounded (value (p.omega + p.alpha * r * r)) := (rounded_value_eq hshocked).symm
    _ ≤ rounded (value (p.omega + p.alpha * r * r) + value (p.beta * v)) :=
      rounded_mono (le_add_of_nonneg_right hkeptNonneg)
    _ = value (p.step v r) := ((roundsTo_add hshocked hkept).value_eq hstep).symm

/-! ## Every state -/

/-- The variance is finite and not negative, and the pending return is finite. -/
theorem State.Reached.variance {s : State Float} (hs : s.Reached p v) (hp : p.Accepted)
    (hv : v.isFinite = true) (hnonneg : 0 ≤ value v) :
    s.variance.isFinite = true ∧ 0 ≤ value s.variance ∧ s.pending.isFinite = true := by
  induction hs with
  | start => exact ⟨hv, hnonneg, (rfl : Float.isFinite 0 = true)⟩
  | feed _ hfeed ih =>
      obtain ⟨hret, hnext, -, rfl⟩ := State.feed_eq_ok_iff.mp hfeed
      exact ⟨hnext, hp.omega_value_pos.le.trans (omega_le_step hp ih.2.1 hnext), hret⟩

end MarketSignals.Garch
