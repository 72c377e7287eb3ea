import MarketSignals.Regime.Config
import MarketSignals.Regime.Window
import MarketSignals.Divergence
import MarketSignals.ChiSquared
import MarketSignals.Signal

/-!
# Regime shifts

The detector compares the last samples with a frozen reference by the two-sample
statistic.  It passes through three phases after it is built or reset:

1. the first samples fill the reference;
2. the recent window fills up;
3. every further sample takes the place of the oldest, and a test is made.

The reference changes again only when it is rebased onto the recent window or
replaced by counts from elsewhere.  A detector whose test or bookkeeping fails is
disabled until it is reset; it has then already taken the sample in.
-/

namespace MarketSignals.Regime

/-- The result of one test. -/
structure TestResult where
  isShift : Bool
  statistic : Float
  pValue : Float
  klDivergence : Float

/-- What the detector says after a sample. -/
inductive Reading where
  | insufficient (collected required : Nat)
  | ready (result : TestResult)

namespace Reading

/-- Whether a shift is reported. -/
def isShift : Reading → Bool
  | insufficient .. => false
  | ready result => result.isShift

/-- The reading as a signal: one for a shift, zero otherwise. -/
def toSignal : Reading → SignalReading
  | insufficient collected required =>
      ⟨0, .insufficientData collected required, .klRegime false 0 1 0⟩
  | ready r =>
      ⟨if r.isShift then 1 else 0, .ready,
        .klRegime r.isShift r.statistic r.pValue r.klDivergence⟩

end Reading

/-- A regime detector. -/
structure Estimator where
  binning : Binning
  windowLength : Nat
  referenceSize : Nat
  threshold : Float
  epsilon : Float
  reference : Histogram
  /-- How many samples of the stream go into the reference; none once it was
  rebased or installed. -/
  referenceTarget : Nat
  filling : Bool
  recent : Histogram
  window : Window Float
  /-- Set by a failed test or bookkeeping, cleared by a reset. -/
  disabled : Bool
  returns : ReturnTracker

/-- What a call gives back, with the detector it leaves. -/
abbrev Outcome (β : Type) := Except Fault β × Estimator

namespace Estimator

/-- A fresh detector. -/
def start (binning : Binning) (windowLength referenceSize : Nat) (threshold epsilon : Float)
    (input : ReturnInput) : Estimator :=
  { binning, windowLength, referenceSize, threshold, epsilon
    reference := .empty binning.nBins
    referenceTarget := referenceSize
    filling := true
    recent := .empty binning.nBins
    window := .empty
    disabled := false
    returns := .start input }

/-- Checks settings and builds a detector, whose bins are checked once more. -/
def build (c : Config) : Except ConfigFault Estimator := do
  let _ ← c.validate
  let binning ← c.binning
  return start binning c.windowLength c.referenceLength c.threshold c.epsilon c.input

/-- Back to the state before any event. -/
def reset (e : Estimator) : Estimator :=
  start e.binning e.windowLength e.referenceSize e.threshold e.epsilon e.returns.input

/-- The error of every call on a disabled detector. -/
def disabledError : EngineError := .invariant "KL estimator is disabled until reset"

/-- How far warm-up has come. -/
def progress (e : Estimator) : Reading :=
  .insufficient (min e.reference.total e.referenceTarget + e.window.size)
    (e.referenceTarget + e.windowLength)

/-- Disables the detector and reports why. -/
def poison {β : Type} (e : Estimator) (error : EngineError) : Outcome β :=
  (.error (.refused error), { e with disabled := true })

/-- Tests the recent window against the reference. -/
def evaluate [MathLibrary] [ChiSquared.GammaLibrary] (e : Estimator) :
    Except Fault TestResult := do
  let n := Float.ofNat e.reference.total
  let m := Float.ofNat e.recent.total
  let klDivergence := smoothedDivergence e.recent e.reference e.epsilon
  let statistic := twoSampleStatistic n m klDivergence
  let pValue ← ChiSquared.survival statistic (e.binning.nBins - 1)
  return { isShift := pValue < e.threshold, statistic, pValue, klDivergence }

/-- Whether histograms and window agree. -/
def isConsistent (e : Estimator) : Bool :=
  e.recent.total == e.window.size && e.recent.isConsistent && e.reference.isConsistent

/-- The error of bookkeeping that went wrong. -/
def divergedError (e : Estimator) : EngineError :=
  .invariant
    s!"histogram counts diverged: recent total {e.recent.total} vs window {e.window.size}"

/-- The panic of counting into a bin that does not exist. -/
def noSuchBin (bin : Nat) : Fault := .panicked (.text s!"no histogram bin {bin}")

/-- Takes a sample into the reference. -/
def fill (e : Estimator) (bin : Nat) : Outcome Reading :=
  match e.reference.add? bin with
  | none => (.error (noSuchBin bin), e)
  | some reference =>
      let e := { e with reference, filling := decide (reference.total < e.referenceTarget) }
      if e.isConsistent then (.ok e.progress, e) else e.poison e.divergedError

/-- Drops the oldest sample of a full window. -/
def evict (e : Estimator) : Except EngineError Unit × Estimator :=
  if e.window.size = e.windowLength then
    match e.window.pop? with
    | none => (.ok (), e)
    | some (oldest, window) =>
        match e.recent.remove (e.binning.indexOf oldest) with
        | .ok recent => (.ok (), { e with window, recent })
        | .error error => (.error error, { e with window })
  else (.ok (), e)

/-- Takes a sample into the recent window and tests it once it is full. -/
def slide [MathLibrary] [ChiSquared.GammaLibrary] (e : Estimator) (sample : Float)
    (bin : Nat) : Outcome Reading :=
  match e.evict with
  | (.error error, e) => e.poison error
  | (.ok (), e) =>
      let e := { e with window := e.window.push sample }
      match e.recent.add? bin with
      | none => (.error (noSuchBin bin), e)
      | some recent =>
          let e := { e with recent }
          if !e.isConsistent then e.poison e.divergedError
          else if e.window.size < e.windowLength then (.ok e.progress, e)
          else
            match e.evaluate with
            | .ok result => (.ok (.ready result), e)
            | .error (.refused error) => e.poison error
            | .error (.panicked panic) => (.error (.panicked panic), e)

/-- Takes in one sample. -/
def push [MathLibrary] [ChiSquared.GammaLibrary] (e : Estimator) (sample : Float) :
    Outcome Reading :=
  if e.disabled then (.error (.refused disabledError), e)
  else if !sample.isFinite then
    (.error (.refused (.invalidInput s!"KL sample must be finite, got {Decimal.text sample}")), e)
  else
    let bin := e.binning.indexOf sample
    if e.filling then e.fill bin else e.slide sample bin

/-- Takes the recent window for the reference. -/
def rebase (e : Estimator) : Except EngineError Estimator :=
  if e.disabled then .error disabledError
  else if e.filling || e.window.size < e.windowLength then
    .error (.insufficientData e.window.size e.windowLength)
  else .ok { e with reference := e.recent, referenceTarget := 0 }

/-- Takes counts from elsewhere for the reference. -/
def installReference (e : Estimator) (counts : List Nat) : Except EngineError Estimator :=
  if e.disabled then .error disabledError
  else if counts.length ≠ e.binning.nBins then
    .error (.invalidInput
      s!"reference has {counts.length} bins, estimator uses {e.binning.nBins}")
  else
    let reference := Histogram.ofCounts counts
    if reference.isEmpty then .error (.invalidInput "reference histogram is empty")
    else .ok { e with reference, referenceTarget := 0, filling := false }

/-- Folds one event in: its return is the sample, and the price counts as
accepted once the sample was. -/
def update [MathLibrary] [ChiSquared.GammaLibrary] (e : Estimator)
    (event : MarketEvent) : Outcome SignalReading :=
  if e.disabled then (.error (.refused disabledError), e)
  else
    match e.returns.peek event with
    | .error fault => (.error (.refused (.invalidInput fault.message)), e)
    | .ok pending =>
        match pending.value with
        | none =>
            let e := { e with returns := e.returns.commit pending }
            (.ok e.progress.toSignal, e)
        | some ret =>
            match e.push ret with
            | (.error fault, e) => (.error fault, e)
            | (.ok reading, e) =>
                (.ok reading.toSignal, { e with returns := e.returns.commit pending })

end Estimator

end MarketSignals.Regime
