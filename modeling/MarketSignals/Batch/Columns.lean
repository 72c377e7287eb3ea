import MarketSignals.Registry.Basic
import MarketSignals.Response

/-!
# Batches of columns

The events of one instrument as columns of equal length.  Where trade columns
are present, a row with neither a trade price nor a trade size (both NaN) is a
quote.

A batch is checked before any row is used: the columns must have as many rows as
there are timestamps, trade columns come in pairs, and timestamps do not go
backwards.
-/

namespace MarketSignals

/-- Columns of one instrument. -/
structure Batch where
  instrumentId : InstrumentId
  timestamps : Array UInt64
  bidPrice : Array Float
  bidSize : Array Float
  askPrice : Array Float
  askSize : Array Float
  tradePrice : Option (Array Float) := none
  tradeSize : Option (Array Float) := none

/-- Why a batch is refused. -/
inductive BatchFault where
  | columnLength (column : EventField) (rows expected : Nat)
  | loneTradeColumn
  | backwards (row : Nat)
  | missingColumn (alphaId : AlphaId) (kind : AlphaKind) (column : EventField)

namespace BatchFault

/-- The wording of a refused batch. -/
def message : BatchFault → String
  | columnLength column rows expected =>
      s!"column {column.name} has {rows} rows, timestamps has {expected}"
  | loneTradeColumn => "trade_price and trade_size must be provided together"
  | backwards row => s!"timestamps go backwards at row {row}"
  | missingColumn alphaId kind column =>
      s!"alpha {alphaId.name} ({kind.name}) needs column {column.name} " ++
        "which the batch does not carry"

/-- A refused batch as a host sees it. -/
def toHostError (f : BatchFault) : HostError := .invalidInput f.message

end BatchFault

namespace Batch

/-- The number of rows. -/
def size (b : Batch) : Nat := b.timestamps.size

/-- The column of a field, if the batch has one. -/
def column? (b : Batch) : EventField → Option (Array Float)
  | .bidPrice => some b.bidPrice
  | .bidSize => some b.bidSize
  | .askPrice => some b.askPrice
  | .askSize => some b.askSize
  | .tradePrice => b.tradePrice
  | .tradeSize => b.tradeSize

/-- Whether a field has a column. -/
def hasField (b : Batch) (field : EventField) : Bool := (b.column? field).isSome

/-- The first row whose timestamp is before that of the row in front of it. -/
def backwardsFrom : (row : Nat) → List UInt64 → Option Nat
  | row, t :: next :: rest =>
      if next < t then some (row + 1) else backwardsFrom (row + 1) (next :: rest)
  | _, _ => none

/-- The first column, in the order of an event, whose length is not that of the
timestamps. -/
def unevenColumn? (b : Batch) : Option BatchFault :=
  EventField.all.findSome? fun field =>
    (b.column? field).bind fun column =>
      if column.size = b.size then none else some (.columnLength field column.size b.size)

/-- Checks lengths, pairing of the trade columns and order of timestamps. -/
def validateShape (b : Batch) : Except BatchFault Unit :=
  match b.unevenColumn? with
  | some fault => .error fault
  | none =>
      if b.tradePrice.isSome ≠ b.tradeSize.isSome then .error .loneTradeColumn
      else
        match backwardsFrom 0 b.timestamps.toList with
        | some row => .error (.backwards row)
        | none => .ok ()

/-- The first field that an estimator needs and the batch does not have. -/
def missing? (b : Batch) (info : SlotInfo) : Option BatchFault :=
  (info.requiredFields.find? fun field => !b.hasField field).map
    (.missingColumn info.alphaId info.kind)

/-- Checks the shape, and that every estimator finds its columns. -/
def validateSchema (b : Batch) (estimators : List SlotInfo) : Except BatchFault Unit := do
  b.validateShape
  match estimators.findSome? b.missing? with
  | some fault => .error fault
  | none => .ok ()

/-- The trade of a row. -/
def trade? (b : Batch) (row : Nat) : Option TradePrint := do
  let price ← (← b.tradePrice)[row]?
  let size ← (← b.tradeSize)[row]?
  if price.isNaN && size.isNaN then none else some ⟨price, size⟩

/-- The event of a row; every row of a checked batch has one. -/
def event? (b : Batch) (row : Nat) : Option MarketEvent := do
  some {
    timestamp := ⟨← b.timestamps[row]?⟩
    instrumentId := b.instrumentId
    bidPrice := ← b.bidPrice[row]?
    bidSize := ← b.bidSize[row]?
    askPrice := ← b.askPrice[row]?
    askSize := ← b.askSize[row]?
    trade := b.trade? row }

/-- The events of the rows in order. -/
def events (b : Batch) : List MarketEvent := (List.range b.size).filterMap b.event?

end Batch

end MarketSignals
