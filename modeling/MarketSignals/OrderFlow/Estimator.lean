import MarketSignals.OrderFlow.Flow
import MarketSignals.Signal
import MarketSignals.Error

/-!
# Order-flow imbalance as a signal

The signal is the cumulative flow divided by the market capitalisation of the
instrument.
-/

namespace MarketSignals.OrderFlow

/-- The settings of an order-flow estimator. -/
structure Config where
  marketCap : Float
  resetPolicy : ResetPolicy Float := .manual

/-- Why settings are refused. -/
inductive ConfigFault where
  | marketCap (value : Float)
  | decayFactor (value : Float)
  | period

/-- The wording of refused settings. -/
def ConfigFault.message : ConfigFault → String
  | marketCap value => s!"OFI market_cap must be finite and > 0, got {Decimal.text value}"
  | decayFactor value => s!"OFI decay factor must be in (0, 1], got {Decimal.text value}"
  | period => "OFI periodic reset needs every_events >= 1"

/-- Checks a policy. -/
def ResetPolicy.validate : ResetPolicy Float → Except ConfigFault Unit
  | manual => .ok ()
  | decay factor => if 0 < factor ∧ factor ≤ 1 then .ok () else .error (.decayFactor factor)
  | periodic everyEvents => if 0 < everyEvents then .ok () else .error .period

/-- Checks settings. -/
def Config.validate (c : Config) : Except ConfigFault Unit :=
  if c.marketCap.isFinite && 0 < c.marketCap then c.resetPolicy.validate
  else .error (.marketCap c.marketCap)

/-- An estimator of order-flow imbalance. -/
structure Estimator where
  marketCap : Float
  policy : ResetPolicy Float
  flow : Flow Float

namespace Estimator

/-- A fresh estimator. -/
def start (marketCap : Float) (policy : ResetPolicy Float) : Estimator :=
  ⟨marketCap, policy, .start⟩

/-- Checks settings and builds an estimator. -/
def build (c : Config) : Except ConfigFault Estimator := do
  c.validate
  .ok (start c.marketCap c.resetPolicy)

/-- The cumulative flow. -/
def cumulative (e : Estimator) : Float := e.flow.cumulative.value

/-- The signal. -/
def signal (e : Estimator) : Float := e.cumulative / e.marketCap

/-- The figures behind a reading. -/
def detail (e : Estimator) : SignalDetail :=
  .ofi e.flow.lastStep e.cumulative e.flow.volumeNormalized

/-- The estimator with a new running state, and its reading: the top of book
that seeds the state gives no signal yet. -/
def advance (e : Estimator) (result : Except (FlowFault Float) (Flow Float)) :
    Except EngineError (SignalReading × Estimator) := do
  let flow ← result.mapError fun f => .invalidInput f.message
  let seeding := e.flow.last.isNone
  let e := { e with flow }
  .ok (⟨e.signal, if seeding then .insufficientData 1 2 else .ready, e.detail⟩, e)

/-- Folds in new sizes at unchanged prices. -/
def updateSizes (e : Estimator) (bidSize askSize : Float) :
    Except EngineError (SignalReading × Estimator) :=
  e.advance (e.flow.observeSizes e.policy bidSize askSize)

/-- Folds in a top of book. -/
def updateBook (e : Estimator) (top : BookTop Float) :
    Except EngineError (SignalReading × Estimator) :=
  e.advance (e.flow.observeBook e.policy top)

/-- The top of book of an event. -/
def topOf (event : MarketEvent) : BookTop Float :=
  ⟨event.bidPrice, event.bidSize, event.askPrice, event.askSize⟩

/-- Folds one event in. -/
def update (e : Estimator) (event : MarketEvent) : Except EngineError (SignalReading × Estimator) :=
  e.advance (e.flow.observeTrade e.policy (topOf event) (event.trade.map (·.size)))

/-- Back to the state before any event. -/
def reset (e : Estimator) : Estimator := start e.marketCap e.policy

end Estimator

end MarketSignals.OrderFlow
