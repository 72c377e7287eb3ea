import MarketSignals.Scalar

/-!
# Compensated sums

A running sum that keeps the rounding error of each addition beside it
(Neumaier's method), so that many small terms are not lost in a large total.  In
exact arithmetic the compensation stays zero.
-/

namespace MarketSignals.OrderFlow

variable {α : Type}

/-- A running sum and the rounding error collected so far. -/
structure CompensatedSum (α : Type) where
  sum : α
  compensation : α

namespace CompensatedSum

variable [Scalar α]

/-- The empty sum. -/
def zero : CompensatedSum α := ⟨0, 0⟩

/-- Adds a term.  The error is measured from the larger of the two operands. -/
def add (s : CompensatedSum α) (x : α) : CompensatedSum α :=
  let total := s.sum + x
  let lost :=
    if Scalar.abs x ≤ Scalar.abs s.sum then (s.sum - total) + x else (x - total) + s.sum
  ⟨total, s.compensation + lost⟩

/-- The value of the sum. -/
def value (s : CompensatedSum α) : α := s.sum + s.compensation

/-- Scales the sum and its error. -/
def scale (s : CompensatedSum α) (factor : α) : CompensatedSum α :=
  ⟨s.sum * factor, s.compensation * factor⟩

end CompensatedSum

end MarketSignals.OrderFlow
