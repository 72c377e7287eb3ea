import MarketSignals.Proofs.Exact
import MarketSignals.Proofs.Garch.Variance

/-!
# Forecasts at a horizon

In exact arithmetic the forecast at a horizon is the forecast for the next step, put through
the recurrence of the expected variance once for every further step.  Its distance from the
long-run variance shrinks by the persistence each time, so it stays between the two.

The number of steps is a signed word.  A horizon beyond `2 ^ 31` has no such number: the
word wraps around, the power is taken with a negative exponent, and the forecast is pushed
away from the long-run variance instead.

## Main definitions

* `Params.expected` — one step of the expected variance.
* `State.ForecastsSoundly` — what is forecast from a state.
* `Params.exact`, `State.exact` — floats read as the numbers they stand for.

## Main results

* `forecast_eq_iterate` — up to `2 ^ 31`.
* `forecast_wrapped` — beyond.
* `forecasts_sound` — every state that comes about, in exact arithmetic or in floats.
-/

namespace MarketSignals.Garch

open Rounding (value)
open scoped Exact

/-- The variance expected one step after a variance is expected: a squared return is as
large as the variance on average. -/
def Params.expected {α : Type} [Scalar α] (p : Params α) (x : α) : α :=
  p.omega + p.persistence * x

variable {p : Params ℝ} {x : ℝ} {horizon : UInt32}

/-! ## The long-run variance -/

namespace Params

theorem expected_eq (p : Params ℝ) (x : ℝ) : p.expected x = p.omega + p.persistence * x := rfl

theorem unconditionalVariance_eq (p : Params ℝ) :
    p.unconditionalVariance = p.omega / (1 - p.persistence) :=
  congrArg (fun one : ℝ => p.omega / (one - p.persistence)) Exact.one_eq

theorem accepted_exact_iff :
    p.Accepted ↔ 0 < p.omega ∧ 0 ≤ p.alpha ∧ 0 ≤ p.beta ∧ p.persistence < 1 := by
  constructor
  · rintro ⟨-, -, -, homega, halpha, hbeta, hsum⟩
    rw [Exact.zero_eq] at homega halpha hbeta
    rw [Exact.one_eq] at hsum
    exact ⟨not_le.mp homega, not_lt.mp halpha, not_lt.mp hbeta, not_le.mp hsum⟩
  · rintro ⟨homega, halpha, hbeta, hsum⟩
    refine ⟨rfl, rfl, rfl, ?_, ?_, ?_, ?_⟩
    · rw [Exact.zero_eq]
      exact not_le.mpr homega
    · rw [Exact.zero_eq]
      exact not_lt.mpr halpha
    · rw [Exact.zero_eq]
      exact not_lt.mpr hbeta
    · rw [Exact.one_eq]
      exact not_le.mpr hsum

namespace Accepted

theorem persistence_nonneg (hp : p.Accepted) : 0 ≤ p.persistence := by
  obtain ⟨-, halpha, hbeta, -⟩ := accepted_exact_iff.mp hp
  exact add_nonneg halpha hbeta

theorem persistence_lt_one (hp : p.Accepted) : p.persistence < 1 :=
  (accepted_exact_iff.mp hp).2.2.2

theorem unconditionalVariance_pos (hp : p.Accepted) : 0 < p.unconditionalVariance := by
  rw [unconditionalVariance_eq]
  exact div_pos (accepted_exact_iff.mp hp).1 (sub_pos.mpr hp.persistence_lt_one)

/-- The long-run variance is expected to stay. -/
theorem expected_unconditionalVariance (hp : p.Accepted) :
    p.expected p.unconditionalVariance = p.unconditionalVariance := by
  have hne : 1 - p.persistence ≠ 0 := (sub_pos.mpr hp.persistence_lt_one).ne'
  rw [expected_eq, unconditionalVariance_eq]
  field_simp
  ring

/-- One step leaves the persistence of a deviation. -/
theorem expected_sub (hp : p.Accepted) (x : ℝ) :
    p.expected x - p.unconditionalVariance = p.persistence * (x - p.unconditionalVariance) := by
  have hfixed := hp.expected_unconditionalVariance
  rw [expected_eq] at hfixed ⊢
  linarith

/-- Any number of steps leaves its power. -/
theorem iterate_expected_sub (hp : p.Accepted) (x : ℝ) (n : ℕ) :
    p.expected^[n] x - p.unconditionalVariance =
      p.persistence ^ n * (x - p.unconditionalVariance) := by
  induction n with
  | zero => rw [Function.iterate_zero_apply, pow_zero, one_mul]
  | succ n ih => rw [Function.iterate_succ_apply', hp.expected_sub, ih, pow_succ', mul_assoc]

/-- So the expected variance stays between where it was and the long-run variance. -/
theorem iterate_expected_mem (hp : p.Accepted) (x : ℝ) (n : ℕ) :
    p.expected^[n] x ∈ Set.uIcc x p.unconditionalVariance := by
  have hlow : 0 ≤ p.persistence ^ n := pow_nonneg hp.persistence_nonneg n
  have hhigh : p.persistence ^ n ≤ 1 := pow_le_one₀ hp.persistence_nonneg hp.persistence_lt_one.le
  have hsub := hp.iterate_expected_sub x n
  rw [Set.mem_uIcc]
  rcases le_total x p.unconditionalVariance with hle | hle
  · left
    constructor <;> nlinarith
  · right
    constructor <;> nlinarith

end Accepted

/-! ## The number of steps -/

theorem stepsAhead_of_le (hpos : 0 < horizon) (h : horizon.toNat ≤ 2 ^ 31) :
    stepsAhead horizon = (horizon.toNat - 1 : ℕ) := by
  have hpos' : 0 < horizon.toNat := UInt32.lt_iff_toNat_lt.mp hpos
  have hne : horizon ≠ 0 := by
    rintro rfl
    exact absurd hpos' (by decide)
  have hsub : (horizon - 1).toNat = horizon.toNat - 1 :=
    UInt32.toNat_sub_of_le _ _ (UInt32.le_iff_toNat_le.mpr hpos')
  unfold stepsAhead signedWord
  rw [if_neg hne, hsub, if_pos]
  show horizon.toNat - 1 < 2 ^ 32 / 2
  omega

/-- Beyond, the word wraps around. -/
theorem stepsAhead_of_lt (h : 2 ^ 31 < horizon.toNat) :
    stepsAhead horizon = -((2 ^ 32 + 1 - horizon.toNat : ℕ) : ℤ) := by
  have hlt : horizon.toNat < 2 ^ 32 := horizon.toNat_lt
  have hne : horizon ≠ 0 := by
    rintro rfl
    exact absurd h (by decide)
  have hsub : (horizon - 1).toNat = horizon.toNat - 1 :=
    UInt32.toNat_sub_of_le _ _ (UInt32.le_iff_toNat_le.mpr (show 1 ≤ horizon.toNat by omega))
  unfold stepsAhead signedWord
  rw [if_neg hne, hsub, if_neg]
  · show ((horizon.toNat - 1 : ℕ) : ℤ) - (2 ^ 32 : ℕ) = _
    omega
  · show ¬horizon.toNat - 1 < 2 ^ 32 / 2
    omega

/-! ## Forecasts -/

/-- The power is the exact one: the number of steps has thirty-two bits. -/
theorem forecast_eq (p : Params ℝ) (x : ℝ) (horizon : UInt32) :
    p.forecast x horizon = p.unconditionalVariance +
      p.persistence ^ stepsAhead horizon * (x - p.unconditionalVariance) := by
  have hlt : (horizon - 1).toNat < 2 ^ 32 := (horizon - 1).toNat_lt
  have hsteps : (stepsAhead horizon).natAbs < 2 ^ 32 := by
    unfold stepsAhead signedWord
    split
    · decide
    · split
      · omega
      next hbig =>
        have hbig' : ¬(horizon - 1).toNat < 2 ^ 32 / 2 := hbig
        show (((horizon - 1).toNat : ℤ) - (2 ^ 32 : ℕ)).natAbs < 2 ^ 32
        omega
  have hpower := Exact.power_eq p.persistence hsteps
  exact congrArg (fun power : ℝ => p.unconditionalVariance +
    power * (x - p.unconditionalVariance)) hpower

/-- Up to `2 ^ 31` the forecast is the expected variance. -/
theorem forecast_eq_iterate (hp : p.Accepted) (hpos : 0 < horizon)
    (h : horizon.toNat ≤ 2 ^ 31) : p.forecast x horizon = p.expected^[horizon.toNat - 1] x := by
  have hsub := hp.iterate_expected_sub x (horizon.toNat - 1)
  rw [forecast_eq, stepsAhead_of_le hpos h, zpow_natCast]
  linarith

/-- Beyond, the deviation is divided by the power of the steps that are missing to a full
word. -/
theorem forecast_wrapped (h : 2 ^ 31 < horizon.toNat) :
    p.forecast x horizon - p.unconditionalVariance =
      (x - p.unconditionalVariance) / p.persistence ^ (2 ^ 32 + 1 - horizon.toNat) := by
  rw [forecast_eq, stepsAhead_of_lt h, zpow_neg, zpow_natCast]
  ring

/-- A deviation that grew is no longer between the two. -/
theorem forecast_wrapped_not_mem (hp : p.Accepted) (hpersistent : 0 < p.persistence)
    (hne : x ≠ p.unconditionalVariance) (h : 2 ^ 31 < horizon.toNat) :
    p.forecast x horizon ∉ Set.uIcc x p.unconditionalVariance := by
  have hlt : horizon.toNat < 2 ^ 32 := horizon.toNat_lt
  have hpower : p.persistence ^ (2 ^ 32 + 1 - horizon.toNat) < 1 :=
    pow_lt_one₀ hp.persistence_nonneg hp.persistence_lt_one (by omega)
  have hpowerPos : 0 < p.persistence ^ (2 ^ 32 + 1 - horizon.toNat) := pow_pos hpersistent _
  intro hmem
  have hshrunk : |p.forecast x horizon - p.unconditionalVariance| ≤
      |x - p.unconditionalVariance| := by
    rw [abs_sub_comm x, abs_sub_comm (p.forecast x horizon)]
    exact Set.abs_sub_right_of_mem_uIcc hmem
  rw [forecast_wrapped h, abs_div, abs_of_pos hpowerPos, div_le_iff₀ hpowerPos] at hshrunk
  have hdeviation : 0 < |x - p.unconditionalVariance| := abs_pos.mpr (sub_ne_zero.mpr hne)
  exact absurd hshrunk (not_le.mpr (mul_lt_of_lt_one_right hdeviation hpower))

end Params

/-! ## States -/

/-- What is forecast from a state.  Up to `2 ^ 31` steps it is the expected variance; the
horizons beyond lead away from the long-run variance. -/
structure State.ForecastsSoundly (p : Params ℝ) (s : State ℝ) (horizon : UInt32) : Prop where
  iterate : horizon.toNat ≤ 2 ^ 31 →
    s.forecast p horizon = p.expected^[horizon.toNat - 1] (s.next p)
  between : horizon.toNat ≤ 2 ^ 31 →
    s.forecast p horizon ∈ Set.uIcc (s.next p) p.unconditionalVariance
  positive : horizon.toNat ≤ 2 ^ 31 → 0 < s.forecast p horizon
  wrapped : 2 ^ 31 < horizon.toNat → 0 < p.persistence →
    s.forecast p horizon - p.unconditionalVariance =
      (s.next p - p.unconditionalVariance) / p.persistence ^ (2 ^ 32 + 1 - horizon.toNat)
  outside : 2 ^ 31 < horizon.toNat → 0 < p.persistence → s.next p ≠ p.unconditionalVariance →
    s.forecast p horizon ∉ Set.uIcc (s.next p) p.unconditionalVariance

namespace State

variable {s : State ℝ}

theorem next_eq (p : Params ℝ) (s : State ℝ) :
    s.next p = p.omega + p.alpha * s.pending * s.pending + p.beta * s.variance := rfl

theorem next_pos (hp : p.Accepted) (hs : 0 ≤ s.variance) : 0 < s.next p := by
  obtain ⟨homega, halpha, hbeta, -⟩ := Params.accepted_exact_iff.mp hp
  rw [next_eq, mul_assoc]
  have hshock := mul_nonneg halpha (mul_self_nonneg s.pending)
  have hkept := mul_nonneg hbeta hs
  linarith

theorem forecast_eq (p : Params ℝ) (s : State ℝ) (hpos : 0 < horizon) :
    s.forecast p horizon = p.forecast (s.next p) horizon := by
  refine if_neg ?_
  rintro rfl
  exact absurd hpos (by decide)

theorem forecastsSoundly (hp : p.Accepted) (hs : 0 ≤ s.variance) (hpos : 0 < horizon) :
    s.ForecastsSoundly p horizon := by
  have hmem : horizon.toNat ≤ 2 ^ 31 →
      s.forecast p horizon ∈ Set.uIcc (s.next p) p.unconditionalVariance := by
    intro h
    rw [forecast_eq p s hpos, Params.forecast_eq_iterate hp hpos h]
    exact hp.iterate_expected_mem _ _
  refine ⟨?_, hmem, ?_, ?_, ?_⟩
  · intro h
    rw [forecast_eq p s hpos, Params.forecast_eq_iterate hp hpos h]
  · intro h
    exact (lt_min (next_pos hp hs) hp.unconditionalVariance_pos).trans_le (hmem h).1
  · intro h _
    rw [forecast_eq p s hpos, Params.forecast_wrapped h]
  · intro h hpersistent hne
    rw [forecast_eq p s hpos]
    exact Params.forecast_wrapped_not_mem hp hpersistent hne h

/-- In exact arithmetic no variance is negative. -/
theorem Reached.variance_nonneg {v : ℝ} (hs : s.Reached p v) (hp : p.Accepted) (hv : 0 ≤ v) :
    0 ≤ s.variance := by
  induction hs with
  | start => exact hv
  | feed _ hfeed ih =>
      obtain ⟨-, -, -, rfl⟩ := State.feed_eq_ok_iff.mp hfeed
      exact (next_pos hp ih).le

end State

/-! ## Floats read exactly -/

/-- Parameters read as the numbers they stand for. -/
noncomputable def Params.exact (p : Params Float) : Params ℝ :=
  ⟨value p.omega, value p.alpha, value p.beta⟩

/-- A state read as the numbers it stands for. -/
noncomputable def State.exact (s : State Float) : State ℝ := ⟨value s.variance, value s.pending⟩

/-- What is accepted in floats is accepted exactly. -/
theorem Params.Accepted.exact {p : Params Float} (hp : p.Accepted) : p.exact.Accepted := by
  refine accepted_exact_iff.mpr ⟨?_, ?_, ?_, ?_⟩
  · exact Rat.cast_pos.mpr hp.omega_value_pos
  · exact Rat.cast_nonneg.mpr hp.alpha_value_nonneg
  · exact Rat.cast_nonneg.mpr hp.beta_value_nonneg
  · show (value p.alpha : ℝ) + (value p.beta : ℝ) < 1
    exact_mod_cast hp.sum_lt_one

/-- Every state that comes about forecasts soundly, in exact arithmetic, and in floats that
are read exactly. -/
theorem forecasts_sound {horizon : UInt32} (hpos : 0 < horizon) :
    (∀ (omega alpha beta : ℝ) (p : Params ℝ), Params.check omega alpha beta = .ok p →
      ∀ (v : ℝ) (s : State ℝ), 0 ≤ v → s.Reached p v → s.ForecastsSoundly p horizon) ∧
    ∀ (c : Config) (p : Params Float), c.params = .ok p →
      ∃ e₀, Estimator.build c = .ok e₀ ∧ ∀ calls,
        (e₀.run calls).state.exact.ForecastsSoundly p.exact horizon := by
  constructor
  · intro omega alpha beta p hcheck v s hv hs
    obtain ⟨-, hp⟩ := Params.check_eq_ok_iff.mp hcheck
    exact State.forecastsSoundly hp (hs.variance_nonneg hp hv) hpos
  · intro c p hc
    obtain ⟨-, hp, hinitial, hnonneg⟩ := Config.params_eq_ok_iff.mp hc
    refine ⟨_, Estimator.build_eq_ok hc, ?_⟩
    intro calls
    have hreached := (Estimator.grownFrom_run p c.initialVariance c.input calls).reached
    have hvalue : 0 ≤ value c.initialVariance := (Rounding.not_lt_zero_iff hinitial).mp hnonneg
    have hvariance := (hreached.variance hp hinitial hvalue).2.1
    exact State.forecastsSoundly hp.exact (Rat.cast_nonneg.mpr hvariance) hpos

theorem accepted_half : Params.Accepted (⟨1, 0, 1 / 2⟩ : Params ℝ) := by
  refine Params.accepted_exact_iff.mpr ⟨one_pos, le_refl 0, ?_, ?_⟩
  · show (0 : ℝ) ≤ 1 / 2
    norm_num
  · show (0 : ℝ) + 1 / 2 < 1
    norm_num

/-- Constant one and persistence a half, four steps after a variance of six; and everyday
settings in floats, as far ahead as can be asked. -/
theorem forecasts_sound_half :
    Params.check (1 : ℝ) 0 (1 / 2) = .ok ⟨1, 0, 1 / 2⟩ ∧
      (State.start (6 : ℝ)).ForecastsSoundly ⟨1, 0, 1 / 2⟩ 4 ∧
      ∃ e₀, Estimator.build everyday = .ok e₀ ∧
        (e₀.run [.feed 0.5, .feed (0 / 0), .feed (-2)]).state.exact.ForecastsSoundly
          (Params.exact ⟨0.1, 0.1, 0.8⟩) 4294967295 := by
  have hcheck : Params.check (1 : ℝ) 0 (1 / 2) = .ok ⟨1, 0, 1 / 2⟩ :=
    Params.check_eq_ok_iff.mpr ⟨rfl, accepted_half⟩
  have hexact := (forecasts_sound (show (0 : UInt32) < 4 by decide)).1
  have hfloat := (forecasts_sound (show (0 : UInt32) < 4294967295 by decide)).2
  obtain ⟨e₀, hbuild, hrun⟩ := hfloat _ _ params_everyday
  exact ⟨hcheck, hexact _ _ _ _ hcheck 6 _ (by norm_num) .start, e₀, hbuild, hrun _⟩

/-- The same constant and persistence, as far ahead as can be asked: the forecast is not
between the four of the next step and the two of the long run. -/
theorem forecast_wraps_around :
    Params.check (1 : ℝ) 0 (1 / 2) = .ok ⟨1, 0, 1 / 2⟩ ∧
      (State.start (6 : ℝ)).Reached ⟨1, 0, 1 / 2⟩ 6 ∧
      (State.start (6 : ℝ)).next ⟨1, 0, 1 / 2⟩ = 4 ∧
      (State.start (6 : ℝ)).forecast ⟨1, 0, 1 / 2⟩ 4294967295 = 10 ∧
      (State.start (6 : ℝ)).forecast ⟨1, 0, 1 / 2⟩ 4294967295 ≠
        (Params.expected ⟨1, 0, 1 / 2⟩)^[4294967294] 4 := by
  have hnext : (State.start (6 : ℝ)).next ⟨1, 0, 1 / 2⟩ = 4 := by
    rw [State.next_eq]
    show (1 : ℝ) + 0 * _ * _ + 1 / 2 * 6 = 4
    norm_num
  have hlongRun : Params.unconditionalVariance (⟨1, 0, 1 / 2⟩ : Params ℝ) = 2 := by
    rw [Params.unconditionalVariance_eq]
    show (1 : ℝ) / (1 - (0 + 1 / 2)) = 2
    norm_num
  have hforecast : (State.start (6 : ℝ)).forecast ⟨1, 0, 1 / 2⟩ 4294967295 = 10 := by
    have hmissing : 2 ^ 32 + 1 - (4294967295 : UInt32).toNat = 2 := by decide
    have hpersistence : Params.persistence (⟨1, 0, 1 / 2⟩ : Params ℝ) = 1 / 2 := zero_add _
    have hwrapped := Params.forecast_wrapped (p := ⟨1, 0, 1 / 2⟩) (x := 4)
      (show 2 ^ 31 < (4294967295 : UInt32).toNat by decide)
    rw [hlongRun, hmissing, hpersistence] at hwrapped
    rw [State.forecast_eq _ _ (by decide), hnext]
    norm_num at hwrapped
    linarith
  refine ⟨Params.check_eq_ok_iff.mpr ⟨rfl, accepted_half⟩, .start, hnext, hforecast, ?_⟩
  have hmem := accepted_half.iterate_expected_mem 4 4294967294
  rw [hlongRun] at hmem
  rw [hforecast]
  intro heq
  rw [← heq] at hmem
  norm_num [Set.mem_uIcc] at hmem

end MarketSignals.Garch
