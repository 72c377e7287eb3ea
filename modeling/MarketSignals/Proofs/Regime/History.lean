import MarketSignals.Proofs.Histogram
import MarketSignals.Regime.Estimator

/-!
# The history of a detector

A detector keeps histograms and a window of its samples.  Its history keeps the
samples themselves, and says what the histograms and the window should be.

## Main definitions

* `Call`, `Estimator.perform` — the calls on a detector.
* `Call.Fits`, `Baseline.Fits` — counts that 64 bits hold.
* `Estimator.sample?` — the sample that a call takes in.
* `History` — what was taken in since the last reset, `History.after` one call.
* `Recorded` — a detector with its history, after a list of calls.
-/

namespace MarketSignals.Regime

/-! ## Calls -/

/-- A call on a detector. -/
inductive Call where
  | push (sample : Float)
  | update (event : MarketEvent)
  | rebase
  | installReference (counts : List Nat)
  | reset

/-- Counts that are installed have a total that fits in 64 bits. -/
def Call.Fits : Call → Prop
  | installReference counts => counts.sum < UInt64.size
  | _ => True

instance (c : Call) : Decidable c.Fits :=
  match c with
  | .installReference counts => inferInstanceAs (Decidable (counts.sum < UInt64.size))
  | .push _ | .update _ | .rebase | .reset => inferInstanceAs (Decidable True)

/-- What a call gives back when it succeeds. -/
inductive Reply where
  | reading (reading : Reading)
  | signal (signal : SignalReading)
  | done

namespace Estimator

/-- The outcome of a call that leaves the detector alone when it fails. -/
def replaced (e : Estimator) : Except EngineError Estimator → Outcome Reply
  | .ok e' => (.ok .done, e')
  | .error error => (.error (.refused error), e)

/-- The answer to a call, and the detector it leaves. -/
def perform [MathLibrary] [ChiSquared.GammaLibrary] (e : Estimator) :
    Call → Outcome Reply
  | .push sample => (e.push sample).map (·.map .reading) id
  | .update event => (e.update event).map (·.map .signal) id
  | .rebase => e.replaced e.rebase
  | .installReference counts => e.replaced (e.installReference counts)
  | .reset => (.ok .done, e.reset)

/-- The sample that a call takes in: a finite one, given to a detector that is
not disabled. -/
def sample? [MathLibrary] (e : Estimator) : Call → Option Float
  | .push sample => if e.disabled then none else (some sample).filter Float.isFinite
  | .update event =>
      if e.disabled then none
      else ((e.returns.peek event).toOption.bind (·.value)).filter Float.isFinite
  | _ => none

/-- Only a detector that is not disabled takes samples in. -/
theorem disabled_of_sample? [MathLibrary] {e : Estimator} {c : Call} {x : Float}
    (hs : e.sample? c = some x) : e.disabled = false := by
  unfold sample? at hs
  split at hs <;> simp_all

end Estimator

/-! ## Histories -/

/-- Where a reference comes from. -/
inductive Baseline where
  | samples (xs : List Float)
  | counts (ns : List Nat)

/-- The histogram of a reference. -/
def Baseline.histogram (b : Binning) : Baseline → Histogram
  | samples xs => .ofSamples b xs
  | counts ns => .ofCounts ns

/-- Counts that a reference is made of have a total that fits in 64 bits. -/
def Baseline.Fits : Baseline → Prop
  | samples _ => True
  | counts ns => ns.sum < UInt64.size

/-- What a detector has taken in since it was built or reset. -/
inductive History where
  /-- The samples so far, all for the reference. -/
  | filling (samples : List Float)
  /-- The reference, and all samples since the reference phase ended. -/
  | frozen (baseline : Baseline) (samples : List Float)

namespace History

/-- The samples since the reference phase ended. -/
def recent : History → List Float
  | filling _ => []
  | frozen _ xs => xs

/-- The last `m` of these, or all if there are fewer. -/
def latest (m : Nat) (p : History) : List Float := p.recent.drop (p.recent.length - m)

theorem latest_filling (m : Nat) (xs : List Float) : (filling xs).latest m = [] := by
  simp [latest, recent]

/-- The reference as far as it goes. -/
def baseline : History → Baseline
  | filling xs => .samples xs
  | frozen baseline _ => baseline

/-- Whether samples go into the reference. -/
def isFilling : History → Bool
  | filling _ => true
  | frozen .. => false

/-- A sample is taken in; the reference phase ends with the last of
`referenceSize` samples. -/
def fold (referenceSize : Nat) (x : Float) : History → History
  | filling xs =>
      if xs.length + 1 < referenceSize then filling (xs ++ [x]) else frozen (.samples (xs ++ [x])) []
  | frozen baseline xs => frozen baseline (xs ++ [x])

/-- The reference is replaced, which ends its phase. -/
def replace (baseline : Baseline) (p : History) : History := frozen baseline p.recent

/-- The history after a call on a detector. -/
def after [MathLibrary] (e : Estimator) (p : History) (call : Call) : History :=
  match call with
  | .push _ | .update _ =>
      match e.sample? call with
      | some x => p.fold e.referenceSize x
      | none => p
  | .rebase =>
      match e.rebase with
      | .ok _ => p.replace (.samples (p.latest e.windowLength))
      | .error _ => p
  | .installReference counts =>
      match e.installReference counts with
      | .ok _ => p.replace (.counts counts)
      | .error _ => p
  | .reset => filling []

/-- A reference fits if all counts that are installed do. -/
theorem fits_after [MathLibrary] {p : History} (hp : p.baseline.Fits) (e : Estimator) {c : Call}
    (hc : c.Fits) : (p.after e c).baseline.Fits := by
  have hfold (x : Float) : (p.fold e.referenceSize x).baseline.Fits := by
    cases p with
    | filling xs =>
        simp only [fold]
        split <;> trivial
    | frozen baseline xs => exact hp
  cases c with
  | push x =>
      simp only [after]
      split
      · exact hfold _
      · exact hp
  | update event =>
      simp only [after]
      split
      · exact hfold _
      · exact hp
  | rebase =>
      simp only [after]
      split
      · trivial
      · exact hp
  | installReference counts =>
      simp only [after]
      split
      · exact hc
      · exact hp
  | reset => trivial

end History

/-- A detector with its history. -/
structure Recorded where
  estimator : Estimator
  past : History

namespace Recorded

/-- A call, put down in the history. -/
def call [MathLibrary] [ChiSquared.GammaLibrary] (r : Recorded) (c : Call) : Recorded :=
  ⟨(r.estimator.perform c).2, r.past.after r.estimator c⟩

/-- The detector after a list of calls, from a fresh one. -/
def run [MathLibrary] [ChiSquared.GammaLibrary] (fresh : Estimator)
    (calls : List Call) : Recorded :=
  calls.foldl call ⟨fresh, .filling []⟩

theorem run_append_singleton [MathLibrary] [ChiSquared.GammaLibrary] (fresh : Estimator)
    (calls : List Call) (c : Call) : run fresh (calls ++ [c]) = (run fresh calls).call c := by
  rw [run, List.foldl_append]
  rfl

/-- Over a run no reference outgrows 64 bits. -/
theorem fits_run [MathLibrary] [ChiSquared.GammaLibrary] (fresh : Estimator) {calls : List Call}
    (hcalls : ∀ c ∈ calls, c.Fits) : (run fresh calls).past.baseline.Fits := by
  induction calls using List.reverseRecOn with
  | nil => trivial
  | append_singleton calls c ih =>
      rw [run_append_singleton]
      exact History.fits_after (ih fun c' hc' => hcalls c' (List.mem_append_left _ hc')) _
        (hcalls c (by simp))

end Recorded

end MarketSignals.Regime
