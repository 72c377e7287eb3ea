import MarketSignals.Proofs.Json.Laws
import MarketSignals.Signal

/-!
# Events and signals as JSON

The codecs of what goes into the engine and of what comes out obey the laws.  A record is
written with its members in the order of its fields and read back field by field; a
signal's status and detail are tagged and read back from behind their tag.

## Main definitions

* `MarketEvent.Writable`, `SignalOutput.Writable` — events and outputs whose floats are
  finite and whose counts fit in 64 bits.
-/

namespace MarketSignals

open Codec (Lawful NeverNull)
open Codec.Lawful (Writable depth plain_encode decode?_encode writable_of_decode?)
open Json (Plain plain_nil plain_cons bind_of_some record?_object tagged?_tagged)
open Json.Record (required?_encode optional?_encode nullable?_encode writable_of_required?
  writable_of_optional? writable_of_nullable?)

/-! ## Names and times -/

instance : Lawful InstrumentId where
  Writable _ := True
  depth := 0
  plain_encode _ := .str _
  decode?_encode _ _ := rfl
  writable_of_decode? _ := trivial

instance : Lawful AlphaId where
  Writable _ := True
  depth := 0
  plain_encode _ := .str _
  decode?_encode _ _ := rfl
  writable_of_decode? _ := trivial

instance : Lawful Timestamp where
  Writable _ := True
  depth := 0
  plain_encode {t} _ := plain_encode (α := UInt64) (x := t.nanos) trivial
  decode?_encode {t _} _ hplace := by
    have hnanos := decode?_encode (α := UInt64) (x := t.nanos) trivial hplace
    exact congrArg (Option.map Timestamp.mk) hnanos
  writable_of_decode? _ := trivial

/-! ## Events -/

/-- A trade print with finite floats. -/
structure TradePrint.Writable (t : TradePrint) : Prop where
  price : t.price.isFinite = true
  size : t.size.isFinite = true

instance : Lawful TradePrint where
  Writable := TradePrint.Writable
  depth := 1
  plain_encode ht :=
    Plain.object (plain_cons ht.price (by decide) (plain_cons ht.size (by decide) plain_nil))
  decode?_encode {t place} ht _ := by
    have hroom : 0 ≤ place.inside.room := Nat.zero_le _
    refine bind_of_some (record?_object place (.refl _) (by decide)) ?_
    refine bind_of_some (required?_encode rfl ht.price hroom) ?_
    refine bind_of_some (required?_encode rfl ht.size hroom) ?_
    rfl
  writable_of_decode? {place j t} h := by
    obtain ⟨r, -, h⟩ := Option.bind_eq_some_iff.mp h
    obtain ⟨price, hprice, h⟩ := Option.bind_eq_some_iff.mp h
    obtain ⟨size, hsize, h⟩ := Option.bind_eq_some_iff.mp h
    cases h
    exact ⟨writable_of_required? hprice, writable_of_required? hsize⟩

instance : NeverNull TradePrint where
  encode_ne_null _ h := by cases h

/-- An event with finite floats. -/
structure MarketEvent.Writable (e : MarketEvent) : Prop where
  bidPrice : e.bidPrice.isFinite = true
  bidSize : e.bidSize.isFinite = true
  askPrice : e.askPrice.isFinite = true
  askSize : e.askSize.isFinite = true
  trade : ∀ t ∈ e.trade, t.Writable

/-- The trade of an event is its last member, which an event without one leaves out. -/
instance : Lawful MarketEvent where
  Writable := MarketEvent.Writable
  depth := 2
  plain_encode {e} he := by
    have htrade : ∀ m ∈ e.trade.toList.map fun t => ("trade", Codec.encode t), Plain 1 m.2 := by
      intro m hm
      obtain ⟨t, ht, rfl⟩ := List.mem_map.mp hm
      exact plain_encode (α := TradePrint) (he.trade t (Option.mem_toList.mp ht))
    exact Plain.object <|
      plain_cons (x := e.timestamp) trivial (by decide) <|
      plain_cons (x := e.instrumentId) trivial (by decide) <|
      plain_cons he.bidPrice (by decide) <| plain_cons he.bidSize (by decide) <|
      plain_cons he.askPrice (by decide) <| plain_cons he.askSize (by decide) htrade
  decode?_encode {e place} he hplace := by
    have hroom : 1 ≤ place.inside.room := Json.Place.le_room_inside hplace
    have hflat : 0 ≤ place.inside.room := Nat.zero_le _
    obtain ⟨timestamp, instrumentId, bidPrice, bidSize, askPrice, askSize, trade⟩ := e
    refine bind_of_some (record?_object place ?_ (by decide)) ?_
    · cases trade with
      | none => exact List.sublist_append_left _ ["trade"]
      | some t => exact .refl _
    refine bind_of_some (required?_encode rfl (x := timestamp) trivial hflat) ?_
    refine bind_of_some (required?_encode rfl (x := instrumentId) trivial hflat) ?_
    refine bind_of_some (required?_encode rfl he.bidPrice hflat) ?_
    refine bind_of_some (required?_encode rfl he.bidSize hflat) ?_
    refine bind_of_some (required?_encode rfl he.askPrice hflat) ?_
    refine bind_of_some (required?_encode rfl he.askSize hflat) ?_
    cases trade with
    | none => rfl
    | some t => exact bind_of_some (optional?_encode (x := some t) rfl he.trade hroom) rfl
  writable_of_decode? {place j e} h := by
    obtain ⟨r, -, h⟩ := Option.bind_eq_some_iff.mp h
    obtain ⟨timestamp, -, h⟩ := Option.bind_eq_some_iff.mp h
    obtain ⟨instrumentId, -, h⟩ := Option.bind_eq_some_iff.mp h
    obtain ⟨bidPrice, hbidPrice, h⟩ := Option.bind_eq_some_iff.mp h
    obtain ⟨bidSize, hbidSize, h⟩ := Option.bind_eq_some_iff.mp h
    obtain ⟨askPrice, haskPrice, h⟩ := Option.bind_eq_some_iff.mp h
    obtain ⟨askSize, haskSize, h⟩ := Option.bind_eq_some_iff.mp h
    obtain ⟨trade, htrade, h⟩ := Option.bind_eq_some_iff.mp h
    cases h
    exact ⟨writable_of_required? hbidPrice, writable_of_required? hbidSize,
      writable_of_required? haskPrice, writable_of_required? haskSize,
      writable_of_optional? htrade⟩

/-! ## Signals -/

/-- A status whose counts fit in 64 bits. -/
def SignalStatus.Writable : SignalStatus → Prop
  | .ready => True
  | .insufficientData collected required => collected < UInt64.size ∧ required < UInt64.size

theorem SignalStatus.Writable.plain {s : SignalStatus} (hs : s.Writable) :
    Plain 1 (Codec.encode s) := by
  cases s with
  | ready => exact Plain.tagged _ _ plain_nil
  | insufficientData collected required =>
      exact Plain.tagged _ _ <|
        plain_cons (α := Nat) hs.1 (by decide) <|
        plain_cons (α := Nat) hs.2 (by decide) plain_nil

instance : Lawful SignalStatus where
  Writable := SignalStatus.Writable
  depth := 1
  plain_encode := SignalStatus.Writable.plain
  decode?_encode {s place} hs hplace := by
    cases s with
    | ready =>
        refine bind_of_some (tagged?_tagged hs.plain hplace rfl (by simp)) ?_
        rfl
    | insufficientData collected required =>
        refine bind_of_some (tagged?_tagged hs.plain hplace rfl (by simp)) ?_
        simp only [Bool.false_eq_true, if_false]
        refine bind_of_some (record?_object .held (.refl _) (by decide)) ?_
        refine bind_of_some (required?_encode rfl hs.1 (Nat.zero_le _)) ?_
        refine bind_of_some (required?_encode rfl hs.2 (Nat.zero_le _)) ?_
        rfl
  writable_of_decode? {place j s} h := by
    obtain ⟨⟨ready, rest⟩, -, h⟩ := Option.bind_eq_some_iff.mp h
    cases ready with
    | true =>
        obtain ⟨-, -, h⟩ := Option.bind_eq_some_iff.mp h
        cases h
        trivial
    | false =>
        obtain ⟨r, -, h⟩ := Option.bind_eq_some_iff.mp h
        obtain ⟨collected, hcollected, h⟩ := Option.bind_eq_some_iff.mp h
        obtain ⟨required, hrequired, h⟩ := Option.bind_eq_some_iff.mp h
        cases h
        exact ⟨writable_of_required? hcollected, writable_of_required? hrequired⟩

/-- A detail with finite floats. -/
def SignalDetail.Writable : SignalDetail → Prop
  | .garch variance lastReturn =>
      variance.isFinite = true ∧ ∀ r ∈ lastReturn, r.isFinite = true
  | .klRegime _ statistic pValue klDivergence =>
      statistic.isFinite = true ∧ pValue.isFinite = true ∧ klDivergence.isFinite = true
  | .ofi step cumulative volumeNormalized =>
      step.isFinite = true ∧ cumulative.isFinite = true ∧ volumeNormalized.isFinite = true

/-- The last return is written `null` where there is none, never left out. -/
theorem SignalDetail.Writable.plain {d : SignalDetail} (hd : d.Writable) :
    Plain 1 (Codec.encode d) := by
  cases d with
  | garch variance lastReturn =>
      exact Plain.tagged _ _ <|
        plain_cons (α := Float) hd.1 (by decide) <|
        plain_cons (α := Option Float) hd.2 (by decide) plain_nil
  | klRegime isShift statistic pValue klDivergence =>
      exact Plain.tagged _ _ <|
        plain_cons (x := isShift) trivial (by decide) <|
        plain_cons (α := Float) hd.1 (by decide) <|
        plain_cons (α := Float) hd.2.1 (by decide) <|
        plain_cons (α := Float) hd.2.2 (by decide) plain_nil
  | ofi step cumulative volumeNormalized =>
      exact Plain.tagged _ _ <|
        plain_cons (α := Float) hd.1 (by decide) <|
        plain_cons (α := Float) hd.2.1 (by decide) <|
        plain_cons (α := Float) hd.2.2 (by decide) plain_nil

instance : Lawful SignalDetail where
  Writable := SignalDetail.Writable
  depth := 1
  plain_encode := SignalDetail.Writable.plain
  decode?_encode {d place} hd hplace := by
    have hheld : 0 ≤ Json.Place.held.room := Nat.zero_le _
    cases d with
    | garch variance lastReturn =>
        refine bind_of_some (tagged?_tagged hd.plain hplace rfl (by simp)) ?_
        dsimp only
        refine bind_of_some (record?_object .held (.refl _) (by decide)) ?_
        refine bind_of_some (required?_encode rfl hd.1 hheld) ?_
        refine bind_of_some (nullable?_encode rfl hd.2 hheld) ?_
        rfl
    | klRegime isShift statistic pValue klDivergence =>
        refine bind_of_some (tagged?_tagged hd.plain hplace rfl (by simp)) ?_
        dsimp only
        refine bind_of_some (record?_object .held (.refl _) (by decide)) ?_
        refine bind_of_some (required?_encode rfl (x := isShift) trivial hheld) ?_
        refine bind_of_some (required?_encode rfl hd.1 hheld) ?_
        refine bind_of_some (required?_encode rfl hd.2.1 hheld) ?_
        refine bind_of_some (required?_encode rfl hd.2.2 hheld) ?_
        rfl
    | ofi step cumulative volumeNormalized =>
        refine bind_of_some (tagged?_tagged hd.plain hplace rfl (by simp)) ?_
        dsimp only
        refine bind_of_some (record?_object .held (.refl _) (by decide)) ?_
        refine bind_of_some (required?_encode rfl hd.1 hheld) ?_
        refine bind_of_some (required?_encode rfl hd.2.1 hheld) ?_
        refine bind_of_some (required?_encode rfl hd.2.2 hheld) ?_
        rfl
  writable_of_decode? {place j d} h := by
    obtain ⟨⟨kind, rest⟩, -, h⟩ := Option.bind_eq_some_iff.mp h
    cases kind with
    | garch =>
        obtain ⟨r, -, h⟩ := Option.bind_eq_some_iff.mp h
        obtain ⟨variance, hvariance, h⟩ := Option.bind_eq_some_iff.mp h
        obtain ⟨lastReturn, hlastReturn, h⟩ := Option.bind_eq_some_iff.mp h
        cases h
        exact ⟨writable_of_required? hvariance, writable_of_nullable? hlastReturn⟩
    | klRegime =>
        obtain ⟨r, -, h⟩ := Option.bind_eq_some_iff.mp h
        obtain ⟨isShift, -, h⟩ := Option.bind_eq_some_iff.mp h
        obtain ⟨statistic, hstatistic, h⟩ := Option.bind_eq_some_iff.mp h
        obtain ⟨pValue, hpValue, h⟩ := Option.bind_eq_some_iff.mp h
        obtain ⟨klDivergence, hklDivergence, h⟩ := Option.bind_eq_some_iff.mp h
        cases h
        exact ⟨writable_of_required? hstatistic, writable_of_required? hpValue,
          writable_of_required? hklDivergence⟩
    | ofi =>
        obtain ⟨r, -, h⟩ := Option.bind_eq_some_iff.mp h
        obtain ⟨step, hstep, h⟩ := Option.bind_eq_some_iff.mp h
        obtain ⟨cumulative, hcumulative, h⟩ := Option.bind_eq_some_iff.mp h
        obtain ⟨volumeNormalized, hvolume, h⟩ := Option.bind_eq_some_iff.mp h
        cases h
        exact ⟨writable_of_required? hstep, writable_of_required? hcumulative,
          writable_of_required? hvolume⟩

/-- An output whose floats are finite and whose counts fit in 64 bits. -/
structure SignalOutput.Writable (o : SignalOutput) : Prop where
  value : o.value.isFinite = true
  status : o.status.Writable
  detail : o.detail.Writable

instance : Lawful SignalOutput where
  Writable := SignalOutput.Writable
  depth := 2
  plain_encode {o} ho :=
    Plain.object <|
      plain_cons (x := o.alphaId) trivial (by decide) <|
      plain_cons (x := o.instrumentId) trivial (by decide) <|
      plain_cons (x := o.timestamp) trivial (by decide) <|
      plain_cons ho.value (by decide) <| plain_cons ho.status (by decide) <|
      plain_cons ho.detail (by decide) plain_nil
  decode?_encode {o place} ho hplace := by
    have hroom : 1 ≤ place.inside.room := Json.Place.le_room_inside hplace
    have hflat : 0 ≤ place.inside.room := Nat.zero_le _
    refine bind_of_some (record?_object place (.refl _) (by decide)) ?_
    refine bind_of_some (required?_encode rfl (x := o.alphaId) trivial hflat) ?_
    refine bind_of_some (required?_encode rfl (x := o.instrumentId) trivial hflat) ?_
    refine bind_of_some (required?_encode rfl (x := o.timestamp) trivial hflat) ?_
    refine bind_of_some (required?_encode rfl ho.value hflat) ?_
    refine bind_of_some (required?_encode rfl ho.status hroom) ?_
    refine bind_of_some (required?_encode rfl ho.detail hroom) ?_
    rfl
  writable_of_decode? {place j o} h := by
    obtain ⟨r, -, h⟩ := Option.bind_eq_some_iff.mp h
    obtain ⟨alphaId, -, h⟩ := Option.bind_eq_some_iff.mp h
    obtain ⟨instrumentId, -, h⟩ := Option.bind_eq_some_iff.mp h
    obtain ⟨timestamp, -, h⟩ := Option.bind_eq_some_iff.mp h
    obtain ⟨value, hvalue, h⟩ := Option.bind_eq_some_iff.mp h
    obtain ⟨status, hstatus, h⟩ := Option.bind_eq_some_iff.mp h
    obtain ⟨detail, hdetail, h⟩ := Option.bind_eq_some_iff.mp h
    cases h
    exact ⟨writable_of_required? hvalue, writable_of_required? hstatus,
      writable_of_required? hdetail⟩

end MarketSignals
