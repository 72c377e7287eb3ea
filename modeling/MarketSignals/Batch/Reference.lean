import MarketSignals.Batch.Run

/-!
# Loading a reference

A reference is loaded in three steps: the bins are read from the estimator, the
samples are counted without holding the registry, and the counts are installed.
Counting looks at the cancellation flag before every chunk of samples.
-/

namespace MarketSignals

/-- Why samples were not counted. -/
inductive CountingFault where
  | cancelled
  | notFinite (position : Nat) (sample : Float)

/-- How a host sees samples that were not counted. -/
def CountingFault.toHostError : CountingFault → HostError
  | cancelled => .ofEngine .cancelled
  | notFinite position sample =>
      .invalidInput s!"reference sample {position} is not finite: {Decimal.text sample}"

/-- Counts samples from `position` on into `counts`. -/
def countSamples (binning : Binning) (chunk : Nat) (cancel : Cancellation) :
    (position : Nat) → List Float → Array Nat → Except CountingFault (Array Nat)
  | _, [], counts => .ok counts
  | position, sample :: rest, counts =>
      if position % chunk = 0 && cancel.stopsAt false position then .error .cancelled
      else if !sample.isFinite then .error (.notFinite position sample)
      else
        countSamples binning chunk cancel (position + 1) rest
          (counts.modify (binning.indexOf sample) (· + 1))

/-- The counts of samples over the bins. -/
def referenceCounts (binning : Binning) (samples : List Float) (chunkSize : Nat)
    (cancel : Cancellation) : Except CountingFault (List Nat) :=
  (countSamples binning (chunkLength chunkSize) cancel 0 samples
    (Array.replicate binning.nBins 0)).map Array.toList

/-- Counts samples over the bins of an estimator and installs the counts as its
reference. -/
def Registry.loadReference {ε : Type} [Estimator ε] (r : Registry ε) (h : Handle)
    (samples : List Float) (chunkSize : Nat) (cancel : Cancellation) :
    Except HostError Unit × Registry ε :=
  match r.referenceBinning h with
  | (.error error, r) => (.error (.ofEngine error), r)
  | (.ok binning, r) =>
      match referenceCounts binning samples chunkSize cancel with
      | .error fault => (.error fault.toHostError, r)
      | .ok counts =>
          let (result, r) := r.installReference h counts
          (result.mapError .ofEngine, r)

end MarketSignals
