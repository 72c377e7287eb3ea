import MarketSignals.Time

/-!
# Market events

The only input of the engine: a top-of-book snapshot of one instrument, with the
last trade print where a trade caused the event.
-/

namespace MarketSignals

/-- The name of a traded instrument. -/
structure InstrumentId where
  name : String
  deriving Repr, DecidableEq, Hashable

instance : EquivBEq InstrumentId := inferInstance

instance : LawfulHashable InstrumentId := inferInstance

/-- The name of a signal. -/
structure AlphaId where
  name : String
  deriving Repr, DecidableEq, Hashable

instance : Codec InstrumentId where
  encode i := Codec.encode i.name
  decode? place j := (Codec.decode? place j).map InstrumentId.mk

instance : Codec AlphaId where
  encode a := Codec.encode a.name
  decode? place j := (Codec.decode? place j).map AlphaId.mk

/-- The trade that caused an event. -/
structure TradePrint where
  price : Float
  size : Float

/-- A quote or trade event of one instrument. -/
structure MarketEvent where
  timestamp : Timestamp
  instrumentId : InstrumentId
  bidPrice : Float
  bidSize : Float
  askPrice : Float
  askSize : Float
  trade : Option TradePrint := none

/-- A price is usable when it is finite and positive. -/
def usablePrice (p : Float) : Bool := p.isFinite && 0 < p

namespace MarketEvent

/-- Whether a trade caused the event. -/
def isTrade (e : MarketEvent) : Bool := e.trade.isSome

/-- The middle of the two quotes, if both are usable. -/
def midPrice? (e : MarketEvent) : Option Float :=
  if usablePrice e.bidPrice && usablePrice e.askPrice then some ((e.bidPrice + e.askPrice) / 2)
  else none

end MarketEvent

/-- A part of an event that an estimator reads. -/
inductive EventField where
  | bidPrice
  | bidSize
  | askPrice
  | askSize
  | tradePrice
  | tradeSize
  deriving Repr, DecidableEq

namespace EventField

/-- Whether only trade events have the field. -/
def ofTrade : EventField → Bool
  | tradePrice | tradeSize => true
  | _ => false

/-- The name of the field, which is also the name of its column in a batch. -/
def name : EventField → String
  | bidPrice => "bid_price"
  | bidSize => "bid_size"
  | askPrice => "ask_price"
  | askSize => "ask_size"
  | tradePrice => "trade_price"
  | tradeSize => "trade_size"

/-- All fields in the order of an event. -/
def all : List EventField := [bidPrice, bidSize, askPrice, askSize, tradePrice, tradeSize]

end EventField

instance : Codec TradePrint where
  encode t := Json.object [("price", Codec.encode t.price), ("size", Codec.encode t.size)]
  decode? place j := do
    let r ← Json.record? ["price", "size"] place j
    some { price := ← r.required? Float "price", size := ← r.required? Float "size" }

/-- The trade is written only where there is one. -/
instance : Codec MarketEvent where
  encode e := Json.object <|
    [("timestamp", Codec.encode e.timestamp),
      ("instrument_id", Codec.encode e.instrumentId),
      ("bid_price", Codec.encode e.bidPrice),
      ("bid_size", Codec.encode e.bidSize),
      ("ask_price", Codec.encode e.askPrice),
      ("ask_size", Codec.encode e.askSize)] ++
    e.trade.toList.map fun t => ("trade", Codec.encode t)
  decode? place j := do
    let r ← Json.record?
      ["timestamp", "instrument_id", "bid_price", "bid_size", "ask_price", "ask_size", "trade"]
      place j
    some {
      timestamp := ← r.required? Timestamp "timestamp"
      instrumentId := ← r.required? InstrumentId "instrument_id"
      bidPrice := ← r.required? Float "bid_price"
      bidSize := ← r.required? Float "bid_size"
      askPrice := ← r.required? Float "ask_price"
      askSize := ← r.required? Float "ask_size"
      trade := ← r.optional? TradePrint "trade" }

end MarketSignals
