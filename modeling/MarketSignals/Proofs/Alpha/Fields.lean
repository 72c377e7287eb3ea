import MarketSignals.Proofs.Alpha.Growth

/-!
# The fields that an estimator reads

An estimator declares fields, and of an event it sees these and nothing else: two events
that agree on them have the same reading or the same error, word for word, and leave the
same estimator.  An estimator of order flow also adds up what is traded, where an event
without a trade counts like one of size zero.

What an estimator declares never changes, so the same is true of two streams of events.

## Main definitions

* `MarketEvent.field?` — the value of a field, if the event has it.
* `MarketEvent.SameButTime` — two events that may differ in their times.
* `Alpha.SeesAlike` — two events agree on what an estimator declares.
* `Alpha.updateAll` — a stream of events.

## Main results

* `Alpha.update_congr` — one event.
* `Alpha.GrownFrom.updateAll_congr` — a stream of events.
-/

namespace MarketSignals

namespace MarketEvent

/-- The value of a field, if the event has it. -/
def field? (event : MarketEvent) : EventField → Option Float
  | .bidPrice => some event.bidPrice
  | .bidSize => some event.bidSize
  | .askPrice => some event.askPrice
  | .askSize => some event.askSize
  | .tradePrice => event.trade.map (·.price)
  | .tradeSize => event.trade.map (·.size)

/-- The size traded, zero where there is no trade. -/
def tradedSize (event : MarketEvent) : Float := (event.trade.map (·.size)).getD 0

/-- Only the fields of the trade may be missing. -/
theorem isSome_field?_iff {event : MarketEvent} {field : EventField} :
    (event.field? field).isSome = true ↔ (field.ofTrade = true → event.isTrade = true) := by
  cases field <;> simp [field?, EventField.ofTrade, isTrade]

/-- Two events are the same but for the time at which they came. -/
def SameButTime (event event' : MarketEvent) : Prop :=
  { event with timestamp := event'.timestamp } = event'

end MarketEvent

variable {event event' : MarketEvent}

/-! ## Prices -/

/-- A price is read off the declared fields. -/
theorem ReturnInput.rawPrice_congr {input : ReturnInput}
    (h : ∀ field ∈ input.requiredFields, event.field? field = event'.field? field) :
    input.rawPrice event = input.rawPrice event' := by
  unfold requiredFields at h
  unfold rawPrice
  cases hsource : input.source with
  | mid =>
      rw [hsource] at h
      have hbid : event.bidPrice = event'.bidPrice := Option.some.inj (h .bidPrice (by simp))
      have hask : event.askPrice = event'.askPrice := Option.some.inj (h .askPrice (by simp))
      simp only [MarketEvent.midPrice?, hbid, hask]
  | lastTrade =>
      rw [hsource] at h
      have hprice : event.trade.map (·.price) = event'.trade.map (·.price) :=
        h .tradePrice (by simp)
      cases htrade : event.trade with
      | none =>
          rw [htrade, Option.map_none] at hprice
          rw [Option.map_eq_none_iff.mp hprice.symm]
      | some t =>
          rw [htrade, Option.map_some] at hprice
          obtain ⟨t', ht', hsame⟩ := Option.map_eq_some_iff.mp hprice.symm
          rw [ht']
          exact congrArg Except.ok hsame.symm

theorem ReturnTracker.peek_congr {t : ReturnTracker}
    (h : ∀ field ∈ t.input.requiredFields, event.field? field = event'.field? field) :
    t.peek event = t.peek event' := by
  unfold peek ReturnInput.priceOf
  rw [ReturnInput.rawPrice_congr h]

/-! ## Order flow -/

/-- No trade counts like one of size zero. -/
theorem OrderFlow.Flow.observeTrade_tradedSize (policy : ResetPolicy Float) (f : Flow Float)
    (top : BookTop Float) (event : MarketEvent) :
    f.observeTrade policy top (event.trade.map (·.size)) =
      f.observeTrade policy top (some event.tradedSize) := by
  unfold MarketEvent.tradedSize
  cases event.trade with
  | some t => rfl
  | none =>
      have hzero : validSize (0 : Float) = true := by decide
      unfold observeTrade
      simp only [Option.map_none, Option.getD_none, hzero, if_true]

theorem OrderFlow.Estimator.update_congr (e : Estimator)
    (hfields : ∀ field ∈ (Alpha.ofi e).requiredFields, event.field? field = event'.field? field)
    (hsize : event.tradedSize = event'.tradedSize) : e.update event = e.update event' := by
  have htop : topOf event = topOf event' := by
    have hbidPrice := Option.some.inj (hfields .bidPrice (by simp [Alpha.requiredFields]))
    have hbidSize := Option.some.inj (hfields .bidSize (by simp [Alpha.requiredFields]))
    have haskPrice := Option.some.inj (hfields .askPrice (by simp [Alpha.requiredFields]))
    have haskSize := Option.some.inj (hfields .askSize (by simp [Alpha.requiredFields]))
    simp only [topOf, hbidPrice, hbidSize, haskPrice, haskSize]
  unfold update
  rw [Flow.observeTrade_tradedSize, Flow.observeTrade_tradedSize, htop, hsize]

/-! ## One event -/

namespace Alpha

variable {a fresh : Alpha}

/-- Two events agree on what an estimator declares; for order flow they agree on the size
traded as well. -/
structure SeesAlike (a : Alpha) (event event' : MarketEvent) : Prop where
  fields : ∀ field ∈ a.requiredFields, event.field? field = event'.field? field
  volume : a.kind = .ofi → event.tradedSize = event'.tradedSize

/-- When an event came is nothing that an estimator sees. -/
theorem seesAlike_of_sameButTime (a : Alpha) (h : event.SameButTime event') :
    a.SeesAlike event event' := by
  rw [← h]
  refine ⟨fun field _ => ?_, fun _ => rfl⟩
  cases field <;> rfl

/-- Events that an estimator sees alike have the same outcome. -/
theorem update_congr (h : a.SeesAlike event event') : a.update event = a.update event' := by
  cases a with
  | garch e =>
      have hpeek : e.returns.peek event = e.returns.peek event' := ReturnTracker.peek_congr h.fields
      simp only [update, Garch.Estimator.update, hpeek]
  | klRegime e =>
      have hpeek : e.returns.peek event = e.returns.peek event' := ReturnTracker.peek_congr h.fields
      simp only [update, Regime.Estimator.update, hpeek]
  | ofi e => simp only [update, e.update_congr h.fields (h.volume rfl)]

/-- What an estimator sees of an event is settled when it is built. -/
theorem GrownFrom.seesAlike (hgrown : GrownFrom fresh a) (h : fresh.SeesAlike event event') :
    a.SeesAlike event event' := by
  have hkind : a.kind = fresh.kind := by cases hgrown <;> rfl
  exact ⟨hgrown.requiredFields_eq ▸ h.fields, fun hofi => h.volume (hkind ▸ hofi)⟩

/-! ## A stream of events -/

/-- What comes of a stream of events, and the estimator that it leaves. -/
def updateAll (a : Alpha) : List MarketEvent → List (Except Fault SignalReading) × Alpha
  | [] => ([], a)
  | event :: rest =>
      let updated := a.update event
      let later := updated.2.updateAll rest
      (updated.1 :: later.1, later.2)

/-- Streams that an estimator sees alike, event by event, have the same outcome. -/
theorem GrownFrom.updateAll_congr (hgrown : GrownFrom fresh a) {events events' : List MarketEvent}
    (h : List.Forall₂ fresh.SeesAlike events events') :
    a.updateAll events = a.updateAll events' := by
  induction h generalizing a with
  | nil => rfl
  | cons hsees _ ih =>
      simp only [updateAll, update_congr (hgrown.seesAlike hsees), ih (hgrown.update _)]

end Alpha

end MarketSignals
