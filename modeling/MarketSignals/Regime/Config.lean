import MarketSignals.Binning
import MarketSignals.Returns

/-!
# Settings of a regime detector

Histograms and window are sized by the settings, so their sizes are bounded.
-/

namespace MarketSignals.Regime

/-- The most bins a histogram may have. -/
def maxBins : Nat := 65536

/-- The longest recent window. -/
def maxWindow : Nat := 10000000

/-- The largest reference. -/
def maxReference : Nat := 1000000000

/-- The settings of a regime detector. -/
structure Config where
  nBins : Nat
  domainMin : Float
  domainMax : Float
  /-- The length of the recent window. -/
  windowLength : Nat
  /-- A shift is reported when the p-value falls below this. -/
  threshold : Float
  /-- The smoothing added to the shares of the reference. -/
  epsilon : Float
  /-- How many samples are frozen into the reference; by default as many as the
  window holds. -/
  referenceSize : Option Nat := none
  input : ReturnInput := {}

/-- Why settings are refused. -/
inductive ConfigFault where
  | tooManyBins (n : Nat)
  | binning (min max : Float) (n : Nat)
  | windowLength (n : Nat)
  | referenceSize (n : Nat)
  | threshold (p : Float)
  | epsilon (x : Float)

/-- The wording of refused settings. -/
def ConfigFault.message : ConfigFault → String
  | tooManyBins n => s!"KL n_bins must be <= {maxBins}, got {n}"
  | binning min max n =>
      let low := Decimal.text min
      let high := Decimal.text max
      "KL binning needs finite domain_min < domain_max and n_bins >= 2, " ++
        s!"got [{low}, {high}] with {n} bins"
  | windowLength n => s!"KL window_m must be in [1, {maxWindow}], got {n}"
  | referenceSize n => s!"KL reference_size must be in [1, {maxReference}], got {n}"
  | threshold p => s!"KL threshold_p must be in (0, 1), got {Decimal.text p}"
  | epsilon x => s!"KL smoothing_epsilon must be finite and > 0, got {Decimal.text x}"

namespace Config

/-- The bins of both histograms. -/
def binning (c : Config) : Except ConfigFault Binning :=
  match Binning.of? c.domainMin c.domainMax c.nBins with
  | some b => .ok b
  | none => .error (.binning c.domainMin c.domainMax c.nBins)

/-- How many samples the reference holds. -/
def referenceLength (c : Config) : Nat := c.referenceSize.getD c.windowLength

/-- Checks settings, the first fault found being reported, and gives the bins. -/
def validate (c : Config) : Except ConfigFault Binning := do
  if maxBins < c.nBins then .error (.tooManyBins c.nBins)
  let b ← c.binning
  if ¬(1 ≤ c.windowLength ∧ c.windowLength ≤ maxWindow) then .error (.windowLength c.windowLength)
  if ¬(1 ≤ c.referenceLength ∧ c.referenceLength ≤ maxReference) then
    .error (.referenceSize c.referenceLength)
  if ¬(0 < c.threshold ∧ c.threshold < 1) then .error (.threshold c.threshold)
  if ¬(c.epsilon.isFinite ∧ 0 < c.epsilon) then .error (.epsilon c.epsilon)
  return b

end Config

end MarketSignals.Regime
