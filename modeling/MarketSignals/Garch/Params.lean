import MarketSignals.Scalar
import MarketSignals.Decimal.Numeral

/-!
# The variance recurrence

The conditional variance follows `σ²' = ω + α r² + β σ²`: a constant, the last
squared return and the last variance.  The parameters are accepted when the
constant is positive, neither weight is negative and the weights sum to less
than one, so that the variance has a long-run level `ω / (1 - α - β)`.
-/

namespace MarketSignals.Garch

variable {α : Type}

/-- The parameters of the recurrence. -/
structure Params (α : Type) where
  omega : α
  alpha : α
  beta : α

/-- Why parameters are refused. -/
inductive ParamFault (α : Type) where
  | notFinite
  | omega (value : α)
  | negative (alpha beta : α)
  | notStationary (sum : α)

/-- The wording of refused parameters. -/
def ParamFault.message : ParamFault Float → String
  | notFinite => "GARCH parameters must be finite"
  | omega value => s!"GARCH omega must be > 0, got {Decimal.text value}"
  | negative alpha beta =>
      "GARCH alpha and beta must be >= 0, " ++
        s!"got alpha={Decimal.text alpha}, beta={Decimal.text beta}"
  | notStationary sum =>
      s!"GARCH alpha + beta must be < 1 for stationarity, got {Decimal.text sum}"

namespace Params

variable [Scalar α]

/-- Checks parameters, the first fault found being reported. -/
def check (omega alpha beta : α) : Except (ParamFault α) (Params α) :=
  if !(Scalar.isFinite omega && Scalar.isFinite alpha && Scalar.isFinite beta) then
    .error .notFinite
  else if omega ≤ 0 then .error (.omega omega)
  else if alpha < 0 ∨ beta < 0 then .error (.negative alpha beta)
  else if 1 ≤ alpha + beta then .error (.notStationary (alpha + beta))
  else .ok ⟨omega, alpha, beta⟩

/-- How much of a deviation of the variance is left after one step. -/
def persistence (p : Params α) : α := p.alpha + p.beta

/-- The long-run variance. -/
def unconditionalVariance (p : Params α) : α := p.omega / (1 - p.persistence)

/-- One step of the recurrence. -/
def step (p : Params α) (variance ret : α) : α :=
  p.omega + p.alpha * ret * ret + p.beta * variance

/-- A 32-bit word read as a signed one. -/
def signedWord (n : UInt32) : Int :=
  if n.toNat < UInt32.size / 2 then n.toNat else (n.toNat : Int) - UInt32.size

/-- The number of steps from the first forecast to the one at `horizon`, as a
signed word; the forecast at zero counts as the first. -/
def stepsAhead (horizon : UInt32) : Int :=
  signedWord (if horizon = 0 then 0 else horizon - 1)

/-- The variance expected at `horizon`, given the forecast for the next step. -/
def forecast (p : Params α) (next : α) (horizon : UInt32) : α :=
  let longRun := p.unconditionalVariance
  longRun + Scalar.power p.persistence (stepsAhead horizon) * (next - longRun)

end Params

/-! ## State -/

/-- The state of the recurrence: the current variance, and the return that will
enter it on the next step. -/
structure State (α : Type) where
  variance : α
  pending : α

/-- Why a return is refused. -/
inductive ReturnFault (α : Type) where
  | notFinite (ret : α)
  /-- The next variance is not finite. -/
  | varianceOverflow (s : State α)
  /-- The variance after the next would not be finite. -/
  | returnOverflow (ret : α)

namespace State

variable [Scalar α]

/-- The state before any return. -/
def start (variance : α) : State α := ⟨variance, 0⟩

/-- The forecast for the next step. -/
def next (p : Params α) (s : State α) : α := p.step s.variance s.pending

/-- Folds one return in.  A return that is accepted leaves a state whose next
variance is finite as well. -/
def feed (p : Params α) (s : State α) (ret : α) : Except (ReturnFault α) (State α) :=
  if !Scalar.isFinite ret then .error (.notFinite ret)
  else
    let variance := s.next p
    if !Scalar.isFinite variance then .error (.varianceOverflow s)
    else if !Scalar.isFinite (p.step variance ret) then .error (.returnOverflow ret)
    else .ok ⟨variance, ret⟩

/-- The variance expected `horizon` steps ahead; at zero it is the current one. -/
def forecast (p : Params α) (s : State α) (horizon : UInt32) : α :=
  if horizon = 0 then s.variance else p.forecast (s.next p) horizon

end State

end MarketSignals.Garch
