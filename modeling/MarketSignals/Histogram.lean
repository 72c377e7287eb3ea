import MarketSignals.Error

/-!
# Histograms

Counts per bin, with their total kept beside them so that it need not be summed
on every update.

Counts and total are words of 64 bits, and their arithmetic wraps around, as it does
in a build without overflow checks.  A build with them breaks off instead of wrapping;
as long as the counts of a histogram fit in 64 bits together, the two are the same.
-/

namespace MarketSignals

/-- Counts over the bins of a binning. -/
structure Histogram where
  counts : Array Nat
  total : Nat
  deriving Repr, DecidableEq

namespace Histogram

/-- A number in 64 bits. -/
def wrap (n : Nat) : Nat := n % UInt64.size

/-- The sum of counts in 64 bits. -/
def wrappedSum (counts : Array Nat) : Nat := wrap (counts.foldr (· + ·) 0)

/-- No samples in `nBins` bins. -/
def empty (nBins : Nat) : Histogram := ⟨Array.replicate nBins 0, 0⟩

/-- The histogram with the given counts. -/
def ofCounts (counts : List Nat) : Histogram := ⟨counts.toArray, wrappedSum counts.toArray⟩

/-- The number of bins. -/
def nBins (h : Histogram) : Nat := h.counts.size

/-- Whether there are no samples. -/
def isEmpty (h : Histogram) : Bool := h.total == 0

/-- Whether the counts still sum to the total. -/
def isConsistent (h : Histogram) : Bool := wrappedSum h.counts == h.total

/-- Counts one sample more in a bin; none if there is no such bin. -/
def add? (h : Histogram) (bin : Nat) : Option Histogram :=
  if bin < h.counts.size then
    some ⟨h.counts.modify bin fun n => wrap (n + 1), wrap (h.total + 1)⟩
  else none

/-- Takes one sample out of a bin, which must hold one. -/
def remove (h : Histogram) (bin : Nat) : Except EngineError Histogram :=
  match h.counts[bin]? with
  -- Subtracting one is adding the word of all ones.
  | some (n + 1) => .ok ⟨h.counts.setIfInBounds bin n, wrap (h.total + (UInt64.size - 1))⟩
  | _ => .error (.invariant s!"evicting from empty histogram bin {bin}")

/-- No samples in the same bins. -/
def clear (h : Histogram) : Histogram := empty h.nBins

end Histogram

end MarketSignals
