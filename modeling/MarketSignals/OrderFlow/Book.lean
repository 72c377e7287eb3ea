import MarketSignals.Scalar
import MarketSignals.Decimal.Numeral

/-!
# Top of book and its imbalance

The order-flow imbalance of a move from one top of book to the next is what the
bid side gained less what the ask side gained.  A side whose price improved
gained its whole new size, one whose price worsened lost its whole old size, and
one that kept its price gained the difference.
-/

namespace MarketSignals.OrderFlow

variable {α : Type}

/-- Best bid and ask. -/
structure BookTop (α : Type) where
  bidPrice : α
  bidSize : α
  askPrice : α
  askSize : α

/-- A side of the book. -/
inductive Side where
  | bid
  | ask
  deriving Repr, DecidableEq

/-- The name of a side. -/
def Side.name : Side → String
  | bid => "bid"
  | ask => "ask"

/-- Why a top of book is refused. -/
inductive BookFault (α : Type) where
  | price (bid ask : α)
  | size (side : Side) (amount : α)

/-- The wording of a refused top of book. -/
def BookFault.message : BookFault Float → String
  | .price bid ask =>
      s!"non-finite quote price: bid={Decimal.text bid}, ask={Decimal.text ask}"
  | .size side amount =>
      s!"{side.name} size must be finite and >= 0, got {Decimal.text amount}"

variable [Scalar α]

/-- Whether a size is one that a book can show. -/
def validSize (size : α) : Bool := Scalar.isFinite size && !decide (size < 0)

namespace BookTop

/-- Checks that prices are finite and sizes finite and not negative. -/
def validate (top : BookTop α) : Except (BookFault α) Unit :=
  if !(Scalar.isFinite top.bidPrice && Scalar.isFinite top.askPrice) then
    .error (.price top.bidPrice top.askPrice)
  else if !validSize top.bidSize then .error (.size .bid top.bidSize)
  else if !validSize top.askSize then .error (.size .ask top.askSize)
  else .ok ()

end BookTop

/-- What the bid side gained. -/
def bidFlow (previous current : BookTop α) : α :=
  if previous.bidPrice < current.bidPrice then current.bidSize
  else if current.bidPrice < previous.bidPrice then -previous.bidSize
  else current.bidSize - previous.bidSize

/-- What the ask side gained. -/
def askFlow (previous current : BookTop α) : α :=
  if current.askPrice < previous.askPrice then current.askSize
  else if previous.askPrice < current.askPrice then -previous.askSize
  else current.askSize - previous.askSize

/-- The imbalance of a move. -/
def imbalance (previous current : BookTop α) : α :=
  bidFlow previous current - askFlow previous current

end MarketSignals.OrderFlow
