import MarketSignals.Garch.Params
import MarketSignals.Returns
import MarketSignals.Signal

/-!
# Conditional volatility of a price stream

The estimator turns prices into returns and folds them into the variance
recurrence.  The first price only seeds the return.  Every operation that can
fail gives a new estimator only when it succeeds, so a refused event changes
nothing.
-/

namespace MarketSignals.Garch

/-- The settings of a volatility estimator. -/
structure Config where
  omega : Float
  alpha : Float
  beta : Float
  /-- The variance that the first update starts from. -/
  initialVariance : Float
  input : ReturnInput := {}

/-- Why settings are refused. -/
inductive ConfigFault where
  | params (fault : ParamFault Float)
  | initialVariance (value : Float)

/-- The wording of refused settings. -/
def ConfigFault.message : ConfigFault → String
  | params fault => fault.message
  | initialVariance value =>
      s!"GARCH sigma2_init must be finite and >= 0, got {Decimal.text value}"

/-- Checks settings and gives the parameters of the recurrence. -/
def Config.params (c : Config) : Except ConfigFault (Params Float) := do
  let p ← (Params.check c.omega c.alpha c.beta).mapError .params
  if !c.initialVariance.isFinite || c.initialVariance < 0 then
    .error (.initialVariance c.initialVariance)
  else .ok p

/-- An estimator of conditional volatility. -/
structure Estimator where
  params : Params Float
  initialVariance : Float
  state : State Float
  lastReturn : Option Float
  returns : ReturnTracker

/-- The wording of a refused return, as an error of the engine. -/
def ReturnFault.toEngineError : ReturnFault Float → EngineError
  | notFinite ret => .invalidInput s!"GARCH return must be finite, got {Decimal.text ret}"
  | varianceOverflow s =>
      let variance := Decimal.text s.variance
      let pending := Decimal.text s.pending
      .invariant s!"GARCH variance overflowed (sigma2_prev={variance}, r_prev={pending})"
  | returnOverflow ret =>
      .invalidInput s!"GARCH return {Decimal.text ret} overflows the variance recurrence"

namespace Estimator

/-- A fresh estimator for checked parameters. -/
def start (params : Params Float) (initialVariance : Float) (input : ReturnInput) : Estimator :=
  { params, initialVariance
    state := .start initialVariance
    lastReturn := none
    returns := .start input }

/-- Checks settings and builds an estimator, whose parameters are checked once more. -/
def build (c : Config) : Except ConfigFault Estimator := do
  let _ ← c.params
  let p ← (Params.check c.omega c.alpha c.beta).mapError .params
  .ok (start p c.initialVariance c.input)

/-- The current variance. -/
def variance (e : Estimator) : Float := e.state.variance

/-- The current volatility. -/
def volatility (e : Estimator) : Float := e.state.variance.sqrt

/-- The variance expected `horizon` steps ahead. -/
def forecast (e : Estimator) (horizon : UInt32) : Float := e.state.forecast e.params horizon

/-- Folds one return in; the new volatility is that of the new estimator. -/
def feed (e : Estimator) (ret : Float) : Except EngineError Estimator := do
  let state ← (e.state.feed e.params ret).mapError (·.toEngineError)
  .ok { e with state, lastReturn := some ret }

/-- The figures behind a reading. -/
def detail (e : Estimator) : SignalDetail := .garch e.variance e.lastReturn

/-- Folds one event in. -/
def update (e : Estimator) (event : MarketEvent) :
    Except EngineError (SignalReading × Estimator) := do
  let pending ← (e.returns.peek event).mapError fun f => .invalidInput f.message
  match pending.value with
  | none =>
      let e := { e with returns := e.returns.commit pending }
      .ok (⟨e.volatility, .insufficientData 1 2, e.detail⟩, e)
  | some ret =>
      let e ← e.feed ret
      let e := { e with returns := e.returns.commit pending }
      .ok (⟨e.volatility, .ready, e.detail⟩, e)

/-- Back to the state before any event. -/
def reset (e : Estimator) : Estimator := start e.params e.initialVariance e.returns.input

end Estimator

end MarketSignals.Garch
