import MarketSignals.Json.Codec

/-!
# Equal-width bins

A binning cuts a closed range of samples into bins of equal width.  Samples
outside the range go to the bins at its ends.
-/

namespace MarketSignals

/-- A range cut into equal bins. -/
structure Binning where
  min : Float
  max : Float
  nBins : Nat

namespace Binning

/-- A binning of a finite, non-empty range into two bins or more. -/
def of? (min max : Float) (nBins : Nat) : Option Binning :=
  if min.isFinite && max.isFinite && min < max && 2 ≤ nBins then some ⟨min, max, nBins⟩ else none

/-- The bin of a sample.  The position within the range is cut to a whole number
toward zero, so a sample below the range lands in the first bin; one that is not
a number does too, and one beyond the range is held in the last. -/
def indexOf (b : Binning) (sample : Float) : Nat :=
  let width := (b.max - b.min) / Float.ofNat b.nBins
  Nat.min ((sample - b.min) / width).toUInt64.toNat (b.nBins - 1)

instance : Codec Binning where
  encode b := Json.object
    [("min", Codec.encode b.min), ("max", Codec.encode b.max), ("n_bins", Codec.encode b.nBins)]
  decode? place j := do
    let r ← Json.record? ["min", "max", "n_bins"] place j
    some {
      min := ← r.required? Float "min"
      max := ← r.required? Float "max"
      nBins := ← r.required? Nat "n_bins" }

end Binning

end MarketSignals
