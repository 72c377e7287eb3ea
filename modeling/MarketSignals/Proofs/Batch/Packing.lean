import MarketSignals.Proofs.Batch.Columns

/-!
# Events as a batch

Events of one instrument put into columns, a row for each.  An event without a trade has
NaN in both trade columns, which is how a row says so.  The rows are the events again,
unless an event has a trade that is NaN in both figures.

## Main definitions

* `Batch.ofEvents` — the columns of events.

## Main results

* `Batch.events_ofEvents` — its rows are the events.
* `Batch.not_flawed_ofEvents` — it can be run, if the events are in order of time.
-/

namespace MarketSignals

/-- The figure that stands for no trade. -/
def Batch.noFigure : Float := 0 / 0

/-- The columns of events of an instrument. -/
def Batch.ofEvents (i : InstrumentId) (events : List MarketEvent) : Batch where
  instrumentId := i
  timestamps := (events.map (·.timestamp.nanos)).toArray
  bidPrice := (events.map (·.bidPrice)).toArray
  bidSize := (events.map (·.bidSize)).toArray
  askPrice := (events.map (·.askPrice)).toArray
  askSize := (events.map (·.askSize)).toArray
  tradePrice := some (events.map fun e => (e.trade.map (·.price)).getD noFigure).toArray
  tradeSize := some (events.map fun e => (e.trade.map (·.size)).getD noFigure).toArray

/-- The trade of an event, if there is one, is told from none by its figures. -/
def MarketEvent.TellsTrade (event : MarketEvent) : Prop :=
  ∀ t ∈ event.trade, (t.price.isNaN && t.size.isNaN) = false

namespace Batch

variable {i : InstrumentId} {events : List MarketEvent}

@[simp] theorem size_ofEvents : (ofEvents i events).size = events.length := by
  simp [size, ofEvents]

theorem size_column_ofEvents {field : EventField} {column : Array Float}
    (present : (ofEvents i events).column? field = some column) : column.size = events.length := by
  cases field <;> cases present <;> exact List.size_toArray.trans (List.length_map ..)

/-- A row gives the trade that was put into it. -/
theorem trade?_ofEvents {row : Nat} {event : MarketEvent} (hrow : events[row]? = some event)
    (htells : event.TellsTrade) : (ofEvents i events).trade? row = event.trade := by
  have hprice : ∀ f : MarketEvent → Float, (events.map f).toArray[row]? = some (f event) := by
    intro f
    rw [List.getElem?_toArray, List.getElem?_map, hrow]
    rfl
  unfold trade? ofEvents
  simp only [Option.bind_eq_bind, Option.bind_some, hprice]
  cases htrade : event.trade with
  | none =>
      have hnone : (noFigure.isNaN && noFigure.isNaN) = true := by decide
      exact if_pos hnone
  | some t =>
      have hsome : ¬ (t.price.isNaN && t.size.isNaN) = true := by
        rw [htells t htrade]
        exact Bool.false_ne_true
      exact if_neg hsome

theorem event?_ofEvents (hsame : ∀ event ∈ events, event.instrumentId = i)
    (htells : ∀ event ∈ events, event.TellsTrade) (row : Nat) :
    (ofEvents i events).event? row = events[row]? := by
  cases hrow : events[row]? with
  | none =>
      apply event?_eq_none
      rw [size_ofEvents]
      exact List.getElem?_eq_none_iff.mp hrow
  | some event =>
      have hm := List.mem_of_getElem? hrow
      unfold event?
      rw [trade?_ofEvents hrow (htells event hm)]
      simp only [ofEvents, List.getElem?_toArray, List.getElem?_map, hrow, Option.map_some,
        Option.bind_eq_bind, Option.bind_some, ← hsame event hm]

/-- Columns of events in order of time can be run on any estimators. -/
theorem not_flawed_ofEvents {ε : Type} {slots : List (Handle × Slot ε)}
    (hordered : (events.map (·.timestamp.nanos)).Pairwise (· ≤ ·)) :
    ¬ (ofEvents i events).Flawed slots := by
  intro hflawed
  cases hflawed with
  | uneven present differs =>
      exact differs ((size_column_ofEvents present).trans size_ofEvents.symm)
  | loneTrade lone => exact lone rfl
  | noTrades _ _ noPrice _ => cases noPrice
  | @backwards row t next here behind less =>
      rw [ofEvents, List.getElem?_toArray] at here behind
      obtain ⟨hlt, hhere⟩ := List.getElem?_eq_some_iff.mp here
      obtain ⟨hlt', hbehind⟩ := List.getElem?_eq_some_iff.mp behind
      have hle :=
        List.pairwise_iff_getElem.mp hordered row (row + 1) hlt hlt' (Nat.lt_succ_self row)
      rw [hhere, hbehind] at hle
      exact absurd less (UInt64.not_lt.mpr hle)

/-- The rows of columns of events are the events. -/
theorem events_ofEvents (hsame : ∀ event ∈ events, event.instrumentId = i)
    (htells : ∀ event ∈ events, event.TellsTrade)
    (hordered : (events.map (·.timestamp.nanos)).Pairwise (· ≤ ·)) :
    (ofEvents i events).events = events := by
  have hsound : ¬ (ofEvents i events).Flawed ([] : List (Handle × Slot Unit)) :=
    not_flawed_ofEvents hordered
  apply List.ext_getElem?
  intro row
  rw [getElem?_events hsound, event?_ofEvents hsame htells]

end Batch

end MarketSignals
