import MarketSignals.OrderFlow.Book
import MarketSignals.OrderFlow.CompensatedSum

/-!
# Cumulative order flow

The running state of an order-flow estimator: the last top of book, the
compensated sum of the imbalances since, and the traded volume.  The first top
of book only seeds the state.

A policy keeps the sum bounded over a long session: it is left alone, shrunk by
a factor before each step, or restarted after a number of steps.

Observing a top of book gives a new state only when the step, the sum and the
volume all stay finite, so a refused one changes nothing.
-/

namespace MarketSignals.OrderFlow

variable {α : Type}

/-- How the cumulative flow is kept bounded. -/
inductive ResetPolicy (α : Type) where
  /-- Only an explicit reset clears the sum. -/
  | manual
  /-- The sum is multiplied by the factor before each step. -/
  | decay (factor : α)
  /-- The sum restarts after every so many steps. -/
  | periodic (everyEvents : Nat)

/-- The running state. -/
structure Flow (α : Type) where
  last : Option (BookTop α)
  cumulative : CompensatedSum α
  lastStep : α
  stepsSinceReset : Nat
  volume : α

/-- Why an observation is refused. -/
inductive FlowFault (α : Type) where
  | book (fault : BookFault α)
  | tradeSize (size : α)
  | volumeOverflow (traded : α)
  | stepOverflow (previous current : BookTop α)
  | sumOverflow (step : α)

/-- The wording of a refused observation. -/
def FlowFault.message : FlowFault Float → String
  | book fault => fault.message
  | tradeSize size => s!"trade size must be finite and >= 0, got {Decimal.text size}"
  | volumeOverflow traded => s!"traded volume overflowed adding {Decimal.text traded}"
  | stepOverflow previous current =>
      let bidBefore := Decimal.text previous.bidSize
      let bidAfter := Decimal.text current.bidSize
      let askBefore := Decimal.text previous.askSize
      let askAfter := Decimal.text current.askSize
      s!"OFI step overflowed (bid {bidBefore} -> {bidAfter}, ask {askBefore} -> {askAfter})"
  | sumOverflow step => s!"cumulative OFI overflowed adding step {Decimal.text step}"

namespace Flow

variable [Scalar α]

/-- The state before any top of book. -/
def start : Flow α := ⟨none, .zero, 0, 0, 0⟩

/-- The sum and the step counter as a policy leaves them for the next step. -/
def prepared (policy : ResetPolicy α) (f : Flow α) : CompensatedSum α × Nat :=
  match policy with
  | .manual => (f.cumulative, f.stepsSinceReset)
  | .decay factor => (f.cumulative.scale factor, f.stepsSinceReset)
  | .periodic everyEvents =>
      if everyEvents ≤ f.stepsSinceReset then (.zero, 0) else (f.cumulative, f.stepsSinceReset)

/-- Folds in a top of book that was checked, with the volume traded. -/
def fold (policy : ResetPolicy α) (f : Flow α) (top : BookTop α) (traded : α) :
    Except (FlowFault α) (Flow α) :=
  let volume := f.volume + traded
  if !Scalar.isFinite volume then .error (.volumeOverflow traded)
  else
    match f.last with
    | none => .ok { f with last := some top, volume, lastStep := 0 }
    | some previous =>
        let step := imbalance previous top
        if !Scalar.isFinite step then .error (.stepOverflow previous top)
        else
          let (sum, steps) := f.prepared policy
          let cumulative := sum.add step
          if !Scalar.isFinite cumulative.value then .error (.sumOverflow step)
          else .ok ⟨some top, cumulative, step, steps + 1, volume⟩

/-- Checks a top of book and folds it in. -/
def observeBook (policy : ResetPolicy α) (f : Flow α) (top : BookTop α) :
    Except (FlowFault α) (Flow α) := do
  top.validate.mapError .book
  f.fold policy top 0

/-- Folds in new sizes at unchanged prices; before any top of book the prices
count as zero. -/
def observeSizes (policy : ResetPolicy α) (f : Flow α) (bidSize askSize : α) :
    Except (FlowFault α) (Flow α) :=
  let top : BookTop α :=
    match f.last with
    | some top => { top with bidSize, askSize }
    | none => ⟨0, bidSize, 0, askSize⟩
  f.observeBook policy top

/-- Checks a top of book and the size of the trade that came with it, if one
did, and folds them in. -/
def observeTrade (policy : ResetPolicy α) (f : Flow α) (top : BookTop α) (trade : Option α) :
    Except (FlowFault α) (Flow α) := do
  top.validate.mapError .book
  match trade with
  | none => f.fold policy top 0
  | some size => if validSize size then f.fold policy top size else .error (.tradeSize size)

/-- The cumulative flow per unit of traded volume, or the flow itself before any
trade. -/
def volumeNormalized (f : Flow α) : α :=
  if 0 < f.volume then f.cumulative.value / f.volume else f.cumulative.value

end Flow

end MarketSignals.OrderFlow
