import Mathlib.Analysis.SpecificLimits.Basic
import MarketSignals.Proofs.Garch.Forecast

/-!
# Convergence of the variance

In exact arithmetic no return is refused, so a stream of returns drives the recurrence
through one sequence of states.  Two streams have a law.  Without any shock the variance
follows the recurrence of parameters that give a shock no weight.  A stream of typical
shocks, each as large as the variance that was forecast for it, makes the variance follow its
own expectation.  A return enters one step after it is fed, so the second law starts with the
first update.

Either way a step multiplies the distance from the fixed point by a ratio from zero to less
than one: the variance approaches it and stays on its side.

## Main definitions

* `State.Driven` — the states that a stream of returns leads through.
* `State.Typical` — returns as large as they are forecast to be.
* `Approaches` — a sequence that nears its limit by a ratio.
* `Params.Converges` — what becomes of the variance.

## Main results

* `Params.Accepted.approaches` — the expected variance.
* `State.Driven.quiet`, `State.Driven.typical` — the two streams.
* `variance_converges` — all accepted parameters, exact or floats that are read exactly.
-/

namespace MarketSignals.Garch

open Filter Topology
open Rounding (value)
open scoped Exact

/-! ## Driven states -/

section

variable {α : Type} [Scalar α]

/-- The states that a stream of returns leads through, none of the returns being refused. -/
structure State.Driven (p : Params α) (v : α) (returns : ℕ → α) (states : ℕ → State α) : Prop where
  start : states 0 = .start v
  feed : ∀ k, (states k).feed p (returns k) = .ok (states (k + 1))

/-- The square of every return is the forecast for the next step at the time it is fed. -/
def State.Typical (p : Params α) (returns : ℕ → α) (states : ℕ → State α) : Prop :=
  ∀ k, returns k * returns k = (states k).forecast p 1

end

/-! ## Geometric approach -/

/-- A sequence that nears its limit: a step leaves the ratio of the distance, and later
members lie between an earlier one and the limit. -/
structure Approaches (limit ratio : ℝ) (x : ℕ → ℝ) : Prop where
  step : ∀ k, x (k + 1) - limit = ratio * (x k - limit)
  law : ∀ k, x k - limit = ratio ^ k * (x 0 - limit)
  tendsto : Tendsto x atTop (𝓝 limit)
  between : ∀ j k, j ≤ k → x k ∈ Set.uIcc (x j) limit

/-- A law that leaves less and less of the distance leaves none of it. -/
theorem tendsto_of_law {limit ratio : ℝ} {x : ℕ → ℝ} (hnonneg : 0 ≤ ratio) (hlt : ratio < 1)
    (hlaw : ∀ k, x k - limit = ratio ^ k * (x 0 - limit)) : Tendsto x atTop (𝓝 limit) := by
  have hpower := tendsto_pow_atTop_nhds_zero_of_lt_one hnonneg hlt
  have hdistance : Tendsto (fun k => x k - limit) atTop (𝓝 0) := by
    have hscaled := hpower.mul_const (x 0 - limit)
    rw [zero_mul] at hscaled
    exact hscaled.congr fun k => (hlaw k).symm
  exact tendsto_sub_nhds_zero_iff.mp hdistance

variable {p : Params ℝ} {v : ℝ}

/-- A sequence that follows the expected variance approaches the long-run variance. -/
theorem Params.Accepted.approaches (hp : p.Accepted) {x : ℕ → ℝ}
    (hx : ∀ k, x (k + 1) = p.expected (x k)) :
    Approaches p.unconditionalVariance p.persistence x := by
  have hiterate : ∀ j n, x (j + n) = p.expected^[n] (x j) := by
    intro j n
    induction n with
    | zero => rfl
    | succ n ih => rw [← Nat.add_assoc, hx, ih, Function.iterate_succ_apply']
  have hlaw : ∀ k, x k - p.unconditionalVariance =
      p.persistence ^ k * (x 0 - p.unconditionalVariance) := by
    intro k
    have hk := hiterate 0 k
    rw [Nat.zero_add] at hk
    rw [hk, hp.iterate_expected_sub]
  refine ⟨?_, hlaw, tendsto_of_law hp.persistence_nonneg hp.persistence_lt_one hlaw, ?_⟩
  · intro k
    rw [hx, hp.expected_sub]
  · intro j k hjk
    obtain ⟨n, rfl⟩ := Nat.exists_eq_add_of_le hjk
    rw [hiterate]
    exact hp.iterate_expected_mem _ _

/-! ## Parameters that give a shock no weight -/

namespace Params

/-- The parameters with the weight of a shock taken away. -/
def shockless (p : Params ℝ) : Params ℝ := { p with alpha := 0 }

theorem shockless_persistence (p : Params ℝ) : p.shockless.persistence = p.beta := zero_add _

theorem shockless_unconditionalVariance (p : Params ℝ) :
    p.shockless.unconditionalVariance = p.omega / (1 - p.beta) := by
  rw [unconditionalVariance_eq, shockless_persistence]
  rfl

theorem shockless_expected (p : Params ℝ) (x : ℝ) :
    p.shockless.expected x = p.omega + p.beta * x := by
  rw [expected_eq, shockless_persistence]
  rfl

theorem Accepted.shockless (hp : p.Accepted) : p.shockless.Accepted := by
  obtain ⟨homega, halpha, hbeta, hsum⟩ := accepted_exact_iff.mp hp
  refine accepted_exact_iff.mpr ⟨homega, le_rfl, hbeta, ?_⟩
  rw [shockless_persistence]
  exact (le_add_of_nonneg_left halpha).trans_lt hsum

end Params

/-! ## What a return does -/

namespace State

variable {s : State ℝ} {returns : ℕ → ℝ} {states : ℕ → State ℝ}

/-- No return is refused. -/
theorem feed_eq_ok (p : Params ℝ) (s : State ℝ) (ret : ℝ) :
    s.feed p ret = .ok ⟨s.next p, ret⟩ :=
  feed_eq_ok_iff.mpr ⟨rfl, rfl, rfl, rfl⟩

/-- The forecast for the next step is the next variance. -/
theorem forecast_one (hp : p.Accepted) (s : State ℝ) : s.forecast p 1 = s.next p := by
  rw [forecast_eq p s (by decide), Params.forecast_eq_iterate hp (by decide) (by decide)]
  rfl

/-- Without a shock on its way the next variance is the one expected without shocks. -/
theorem next_of_pending_zero (h : s.pending = 0) :
    s.next p = p.shockless.expected s.variance := by
  rw [next_eq, h, Params.shockless_expected, mul_zero, add_zero]

/-- With a shock on its way that is as large as the variance, the next variance is the
expected one. -/
theorem next_of_pending_sq (h : s.pending * s.pending = s.variance) :
    s.next p = p.expected s.variance := by
  rw [next_eq, mul_assoc, h, Params.expected_eq, add_assoc, ← add_mul]
  rfl

/-- A stream leads through one sequence of states. -/
theorem existsUnique_driven (p : Params ℝ) (v : ℝ) (returns : ℕ → ℝ) :
    ∃! states, Driven p v returns states := by
  refine ⟨fun k => Nat.rec (.start v) (fun k s => ⟨s.next p, returns k⟩) k, ⟨rfl, ?_⟩, ?_⟩
  · exact fun k => feed_eq_ok p _ _
  · intro states hstates
    funext k
    induction k with
    | zero => exact hstates.start
    | succ k ih =>
        have hfeed := hstates.feed k
        rw [feed_eq_ok, ih] at hfeed
        exact (Except.ok.inj hfeed).symm

namespace Driven

variable (hd : Driven p v returns states)
include hd

/-- A return waits while the variance takes its step. -/
theorem state_succ (k : ℕ) : states (k + 1) = ⟨(states k).next p, returns k⟩ := by
  have hfeed := hd.feed k
  rw [feed_eq_ok] at hfeed
  exact (Except.ok.inj hfeed).symm

theorem variance_succ (k : ℕ) : (states (k + 1)).variance = (states k).next p := by
  rw [hd.state_succ]

theorem pending_succ (k : ℕ) : (states (k + 1)).pending = returns k := by
  rw [hd.state_succ]

theorem variance_zero : (states 0).variance = v := by
  rw [hd.start]
  rfl

/-- Returns of zero: the variance nears the fixed point of its own weight from the start. -/
theorem quiet (hp : p.Accepted) (hquiet : ∀ k, returns k = 0) :
    Approaches (p.omega / (1 - p.beta)) p.beta fun k => (states k).variance := by
  have hpending : ∀ k, (states k).pending = 0 := by
    intro k
    cases k with
    | zero =>
        rw [hd.start]
        exact Exact.zero_eq
    | succ k => rw [hd.pending_succ, hquiet]
  rw [← p.shockless_unconditionalVariance, ← p.shockless_persistence]
  refine hp.shockless.approaches fun k => ?_
  rw [hd.variance_succ, next_of_pending_zero (hpending k)]

/-- Typical shocks: the variance nears the long-run variance from the first update on. -/
theorem typical (hp : p.Accepted) (ht : Typical p returns states) :
    Approaches p.unconditionalVariance p.persistence fun k => (states (k + 1)).variance := by
  refine hp.approaches fun k => ?_
  rw [hd.variance_succ (k + 1)]
  refine next_of_pending_sq ?_
  rw [hd.pending_succ, hd.variance_succ, ht k, forecast_one hp]

end Driven

/-- There is a stream of typical shocks: no forecast is negative. -/
theorem exists_typical (hp : p.Accepted) (hv : 0 ≤ v) :
    ∃ returns states, Driven p v returns states ∧ Typical p returns states := by
  let states : ℕ → State ℝ :=
    fun k => Nat.rec (.start v) (fun _ s => ⟨s.next p, √(s.next p)⟩) k
  have hnonneg : ∀ k, 0 ≤ (states k).variance := by
    intro k
    induction k with
    | zero => exact hv
    | succ k ih => exact (next_pos hp ih).le
  refine ⟨fun k => √((states k).next p), states, ⟨rfl, fun k => feed_eq_ok p _ _⟩, fun k => ?_⟩
  rw [forecast_one hp, Real.mul_self_sqrt (next_pos hp (hnonneg k)).le]

end State

/-! ## All accepted parameters -/

/-- What becomes of the variance.  Every stream of returns is accepted.  With returns of zero
the variance approaches the constant over one less the weight of the last variance; with
typical shocks, of which there is a stream, it approaches the long-run variance once the first
return is fed. -/
structure Params.Converges (p : Params ℝ) (v : ℝ) : Prop where
  accepted : ∀ returns, ∃! states, State.Driven p v returns states
  quiet : ∀ states, State.Driven p v (fun _ => 0) states →
    (states 0).variance = v ∧
      Approaches (p.omega / (1 - p.beta)) p.beta fun k => (states k).variance
  shocks : ∃ returns states, State.Driven p v returns states ∧ State.Typical p returns states
  typical : ∀ returns states, State.Driven p v returns states → State.Typical p returns states →
    Approaches p.unconditionalVariance (p.alpha + p.beta) fun k => (states (k + 1)).variance

theorem Params.Accepted.converges (hp : p.Accepted) (hv : 0 ≤ v) : p.Converges v where
  accepted := State.existsUnique_driven p v
  quiet _ hd := ⟨hd.variance_zero, hd.quiet hp fun _ => rfl⟩
  shocks := State.exists_typical hp hv
  typical _ _ hd ht := hd.typical hp ht

/-- The variance converges for all accepted parameters from any variance that is not
negative, in exact arithmetic, and for all accepted settings in floats that are read
exactly. -/
theorem variance_converges :
    (∀ (omega alpha beta : ℝ) (p : Params ℝ), Params.check omega alpha beta = .ok p →
      p = ⟨omega, alpha, beta⟩ ∧ ∀ v, 0 ≤ v → p.Converges v) ∧
    ∀ (c : Config) (p : Params Float), c.params = .ok p →
      p.exact.Converges (value c.initialVariance) := by
  constructor
  · intro omega alpha beta p hcheck
    obtain ⟨heq, hp⟩ := Params.check_eq_ok_iff.mp hcheck
    exact ⟨heq, fun v hv => hp.converges hv⟩
  · intro c p hc
    obtain ⟨-, hp, hinitial, hnonneg⟩ := Config.params_eq_ok_iff.mp hc
    have hvalue : 0 ≤ value c.initialVariance := (Rounding.not_lt_zero_iff hinitial).mp hnonneg
    exact hp.exact.converges (Rat.cast_nonneg.mpr hvalue)

theorem accepted_threeQuarters : Params.Accepted (⟨1, 1 / 4, 1 / 2⟩ : Params ℝ) := by
  refine Params.accepted_exact_iff.mpr ⟨one_pos, ?_, ?_, ?_⟩
  · show (0 : ℝ) ≤ 1 / 4
    norm_num
  · show (0 : ℝ) ≤ 1 / 2
    norm_num
  · show (1 : ℝ) / 4 + 1 / 2 < 1
    norm_num

/-- Constant one and weights of a quarter and a half, from a variance of ten.  Without shocks it
is six and then four on the way to two; with typical shocks it is six and then five and a half
on the way to four.  Everyday settings in floats converge as well. -/
theorem variance_converges_threeQuarters :
    let p : Params ℝ := ⟨1, 1 / 4, 1 / 2⟩
    Params.check (1 : ℝ) (1 / 4) (1 / 2) = .ok p ∧ (0 : ℝ) ≤ 10 ∧ p.Converges 10 ∧
      (∃ states, State.Driven p 10 (fun _ => 0) states ∧
        (states 1).variance = 6 ∧ (states 2).variance = 4) ∧
      (∃ returns states, State.Driven p 10 returns states ∧ State.Typical p returns states ∧
        (states 1).variance = 6 ∧ (states 2).variance = 11 / 2) ∧
      everyday.params = .ok ⟨0.1, 0.1, 0.8⟩ ∧
      (Params.exact ⟨0.1, 0.1, 0.8⟩).Converges (value everyday.initialVariance) := by
  intro p
  have hcheck : Params.check (1 : ℝ) (1 / 4) (1 / 2) = .ok p :=
    Params.check_eq_ok_iff.mpr ⟨rfl, accepted_threeQuarters⟩
  have hten : (0 : ℝ) ≤ 10 := by norm_num
  have hconverges := (variance_converges.1 _ _ _ _ hcheck).2 10 hten
  have hnext : (State.start (10 : ℝ)).next p = 6 := by
    rw [State.next_eq]
    show (1 : ℝ) + 1 / 4 * ((0 : ℕ) : ℝ) * ((0 : ℕ) : ℝ) + 1 / 2 * 10 = 6
    norm_num
  have hlongRun : p.unconditionalVariance = 4 := by
    rw [Params.unconditionalVariance_eq]
    show (1 : ℝ) / (1 - (1 / 4 + 1 / 2)) = 4
    norm_num
  have hsix : ∀ returns states, State.Driven p 10 returns states → (states 1).variance = 6 := by
    intro returns states hd
    rw [hd.variance_succ, hd.start, hnext]
  obtain ⟨still, hstill, -⟩ := hconverges.accepted fun _ => 0
  obtain ⟨returns, shocked, hshocked, htypical⟩ := hconverges.shocks
  refine ⟨hcheck, hten, hconverges, ⟨still, hstill, hsix _ _ hstill, ?_⟩,
    ⟨returns, shocked, hshocked, htypical, hsix _ _ hshocked, ?_⟩, params_everyday,
    variance_converges.2 _ _ params_everyday⟩
  · have hstep : (still 2).variance - 1 / (1 - 1 / 2) =
        1 / 2 * ((still 1).variance - 1 / (1 - 1 / 2)) :=
      (hconverges.quiet still hstill).2.step 1
    rw [hsix _ _ hstill] at hstep
    norm_num at hstep
    linarith
  · have hstep : (shocked 2).variance - p.unconditionalVariance =
        (1 / 4 + 1 / 2) * ((shocked 1).variance - p.unconditionalVariance) :=
      (hconverges.typical returns shocked hshocked htypical).step 0
    rw [hsix _ _ hshocked, hlongRun] at hstep
    linarith

end MarketSignals.Garch
