import MarketSignals.Scalar
import MarketSignals.Market.Event
import MarketSignals.Error

/-!
# Returns from prices

An estimator that works on returns reads one price from each event and compares
it with the last one it accepted.  Which price, and how the two are compared,
is fixed with the estimator.
-/

namespace MarketSignals

/-- Where prices come from. -/
inductive PriceSource where
  /-- The middle of the quotes, on every event. -/
  | mid
  /-- The last trade, on trade events only. -/
  | lastTrade
  deriving Repr, DecidableEq

/-- How two prices give a return. -/
inductive ReturnKind where
  | log
  | simple
  deriving Repr, DecidableEq

/-- The return convention of an estimator. -/
structure ReturnInput where
  source : PriceSource := .mid
  kind : ReturnKind := .log
  deriving Repr, DecidableEq

/-- Why an event gives no price. -/
inductive PriceFault where
  | noMid (bid ask : Float)
  | noTrade
  | unusable (price : Float)

/-- The wording of a missing price. -/
def PriceFault.message : PriceFault → String
  | noMid bid ask => s!"no valid mid price: bid={Decimal.text bid}, ask={Decimal.text ask}"
  | noTrade => "event carries no trade print"
  | unusable price => s!"price must be finite and > 0, got {Decimal.text price}"

namespace ReturnInput

/-- The fields that a convention reads. -/
def requiredFields (input : ReturnInput) : List EventField :=
  match input.source with
  | .mid => [.bidPrice, .askPrice]
  | .lastTrade => [.tradePrice]

/-- The price before it is checked. -/
def rawPrice (input : ReturnInput) (e : MarketEvent) : Except PriceFault Float :=
  match input.source with
  | .mid =>
      match e.midPrice? with
      | some p => .ok p
      | none => .error (.noMid e.bidPrice e.askPrice)
  | .lastTrade =>
      match e.trade with
      | some t => .ok t.price
      | none => .error .noTrade

/-- The usable price that a convention reads from an event. -/
def priceOf (input : ReturnInput) (e : MarketEvent) : Except PriceFault Float := do
  let p ← input.rawPrice e
  if usablePrice p then .ok p else .error (.unusable p)

/-- The return from one price to the next. -/
def compute [MathLibrary] (input : ReturnInput) (previous current : Float) : Float :=
  match input.kind with
  | .log => ln (current / previous)
  | .simple => (current - previous) / previous

end ReturnInput

/-- The last price an estimator accepted. -/
structure ReturnTracker where
  input : ReturnInput
  lastPrice : Option Float

/-- A price that was read and the return it implies, before it is accepted. -/
structure PendingReturn where
  price : Float
  value : Option Float

namespace ReturnTracker

/-- No price yet. -/
def start (input : ReturnInput) : ReturnTracker := ⟨input, none⟩

/-- Reads an event without accepting it. -/
def peek [MathLibrary] (t : ReturnTracker) (e : MarketEvent) : Except PriceFault PendingReturn := do
  let price ← t.input.priceOf e
  .ok ⟨price, t.lastPrice.map (t.input.compute · price)⟩

/-- Accepts a price that was read. -/
def commit (t : ReturnTracker) (p : PendingReturn) : ReturnTracker :=
  { t with lastPrice := some p.price }

end ReturnTracker

/-! ## JSON -/

namespace PriceSource

/-- The name of a source. -/
def name : PriceSource → String
  | mid => "mid"
  | lastTrade => "last_trade"

instance : Codec PriceSource where
  encode s := Json.ofString s.name
  decode? := Json.choice? ([mid, lastTrade].map fun s => (s.name, s))

end PriceSource

namespace ReturnKind

/-- The name of a kind of return. -/
def name : ReturnKind → String
  | log => "log"
  | simple => "simple"

instance : Codec ReturnKind where
  encode k := Json.ofString k.name
  decode? := Json.choice? ([log, simple].map fun k => (k.name, k))

end ReturnKind

instance : Codec ReturnInput where
  encode i := Json.object [("source", Codec.encode i.source), ("kind", Codec.encode i.kind)]
  decode? place j := do
    let r ← Json.record? ["source", "kind"] place j
    some {
      source := ← r.default? "source" PriceSource.mid
      kind := ← r.default? "kind" ReturnKind.log }

end MarketSignals
