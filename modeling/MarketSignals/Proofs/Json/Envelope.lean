import MarketSignals.Proofs.Json.Data
import MarketSignals.Proofs.Engine.Loading
import MarketSignals.Proofs.Registry.LastOutput

/-!
# Envelopes that read back

A host that reads the text of an envelope gets the result it was written for, with one
exception.  Data that are themselves written `null` cannot be told from data that are
missing, so the envelope of such a result reads back without its data.  Of what an engine
gives its hosts these are the unit results of calls that only act, and the latest output of
an estimator that has none yet.  Errors, handles, outputs and reports are recovered, whatever
their strings hold.

## Main definitions

* `Codec.kept` — what is read of a value in an optional field.
* `Response.result?` — the result that an envelope holds.
* `Recovers` — a host that reads the text of a result gets that result.
* `HostResult` — the results that an engine gives.

## Main results

* `recovers_iff` — a result is recovered exactly if its data are not written `null`.
* `envelopes_read_back` — which results of an engine are recovered.
-/

namespace MarketSignals

open Codec (Lawful NeverNull)
open Codec.Lawful (Writable depth plain_encode decode?_encode)
open Json (Plain plain_nil plain_cons bind_of_some record?_object choice?_ofString)
open Json.Record (required?_encode writable_of_required?)

/-! ## What results hold -/

instance : Lawful Unit where
  Writable _ := True
  depth := 0
  plain_encode _ := .null
  decode?_encode _ _ := rfl
  writable_of_decode? _ := trivial

instance : Lawful UInt32 where
  Writable _ := True
  depth := 0
  plain_encode {n} _ :=
    plain_encode (α := Nat) (Nat.lt_trans n.toNat_lt (by decide))
  decode?_encode {n place} _ hplace := by
    have hwide : n.toNat < UInt64.size := Nat.lt_trans n.toNat_lt (by decide)
    have hnarrow : decide (n.toNat < UInt32.size) = true := decide_eq_true n.toNat_lt
    show ((Codec.decode? place (Codec.encode n.toNat) : Option Nat).filter
      (· < UInt32.size)).map UInt32.ofNat = some n
    rw [decode?_encode hwide hplace, Option.filter_some, if_pos hnarrow, Option.map_some,
      UInt32.ofNat_toNat]
  writable_of_decode? _ := trivial

instance : Lawful Handle where
  Writable _ := True
  depth := 1
  plain_encode {h} _ :=
    Plain.object <|
      plain_cons (x := h.index) trivial (by decide) <|
      plain_cons (x := h.generation) trivial (by decide) plain_nil
  decode?_encode {h place} _ _ := by
    have hflat : 0 ≤ place.inside.room := Nat.zero_le _
    refine bind_of_some (record?_object place (.refl _) (by decide)) ?_
    refine bind_of_some (required?_encode rfl (x := h.index) trivial hflat) ?_
    refine bind_of_some (required?_encode rfl (x := h.generation) trivial hflat) ?_
    rfl
  writable_of_decode? _ := trivial

instance : Lawful ErrorCode where
  Writable _ := True
  depth := 0
  plain_encode _ := .str _
  decode?_encode {c place} _ _ := by cases c <;> exact choice?_ofString _ place _
  writable_of_decode? _ := trivial

instance : Lawful HostError where
  Writable _ := True
  depth := 1
  plain_encode {e} _ :=
    Plain.object <|
      plain_cons (x := e.code) trivial (by decide) <|
      plain_cons (x := e.message) trivial (by decide) plain_nil
  decode?_encode {e place} _ _ := by
    have hflat : 0 ≤ place.inside.room := Nat.zero_le _
    refine bind_of_some (record?_object place (.refl _) (by decide)) ?_
    refine bind_of_some (required?_encode rfl (x := e.code) trivial hflat) ?_
    refine bind_of_some (required?_encode rfl (x := e.message) trivial hflat) ?_
    rfl
  writable_of_decode? _ := trivial

/-- A failure can be written when its row fits in 64 bits. -/
instance : Lawful RowFailure where
  Writable f := f.row < UInt64.size
  depth := 2
  plain_encode {f} hf :=
    Plain.object <|
      plain_cons (α := Nat) hf (by decide) <|
      plain_cons (x := f.alphaId) trivial (by decide) <|
      plain_cons (x := f.error) trivial (by decide) plain_nil
  decode?_encode {f place} hf hplace := by
    have hroom : 1 ≤ place.inside.room := Json.Place.le_room_inside hplace
    have hflat : 0 ≤ place.inside.room := Nat.zero_le _
    refine bind_of_some (record?_object place (.refl _) (by decide)) ?_
    refine bind_of_some (required?_encode rfl hf hflat) ?_
    refine bind_of_some (required?_encode rfl (x := f.alphaId) trivial hflat) ?_
    refine bind_of_some (required?_encode rfl (x := f.error) trivial hroom) ?_
    rfl
  writable_of_decode? {place j f} h := by
    obtain ⟨r, -, h⟩ := Option.bind_eq_some_iff.mp h
    obtain ⟨row, hrow, h⟩ := Option.bind_eq_some_iff.mp h
    obtain ⟨alphaId, -, h⟩ := Option.bind_eq_some_iff.mp h
    obtain ⟨error, -, h⟩ := Option.bind_eq_some_iff.mp h
    cases h
    exact writable_of_required? (α := Nat) hrow

/-- A report whose outputs can be written and whose counts fit in 64 bits. -/
structure BatchReport.Writable (b : BatchReport) : Prop where
  outputs : ∀ o ∈ b.outputs, o.Writable
  failures : ∀ f ∈ b.failures, f.row < UInt64.size
  rowsProcessed : b.rowsProcessed < UInt64.size

instance : Lawful BatchReport where
  Writable := BatchReport.Writable
  depth := 4
  plain_encode {b} hb :=
    Plain.object <|
      plain_cons (α := List SignalOutput) hb.outputs (by decide) <|
      plain_cons (α := List RowFailure) hb.failures (by decide) <|
      plain_cons (α := Nat) hb.rowsProcessed (by decide) <|
      plain_cons (x := b.cancelled) trivial (by decide) plain_nil
  decode?_encode {b place} hb hplace := by
    have hroom : 3 ≤ place.inside.room := Json.Place.le_room_inside hplace
    have hflat : 0 ≤ place.inside.room := Nat.zero_le _
    refine bind_of_some (record?_object place (.refl _) (by decide)) ?_
    refine bind_of_some (required?_encode (α := List SignalOutput) rfl hb.outputs hroom) ?_
    refine bind_of_some (required?_encode (α := List RowFailure) rfl hb.failures hroom) ?_
    refine bind_of_some (required?_encode (α := Nat) rfl hb.rowsProcessed hflat) ?_
    refine bind_of_some (required?_encode rfl (x := b.cancelled) trivial hflat) ?_
    rfl
  writable_of_decode? {place j b} h := by
    obtain ⟨r, -, h⟩ := Option.bind_eq_some_iff.mp h
    obtain ⟨outputs, houtputs, h⟩ := Option.bind_eq_some_iff.mp h
    obtain ⟨failures, hfailures, h⟩ := Option.bind_eq_some_iff.mp h
    obtain ⟨rowsProcessed, hrows, h⟩ := Option.bind_eq_some_iff.mp h
    obtain ⟨cancelled, -, h⟩ := Option.bind_eq_some_iff.mp h
    cases h
    exact ⟨writable_of_required? (α := List SignalOutput) houtputs,
      writable_of_required? (α := List RowFailure) hfailures,
      writable_of_required? (α := Nat) hrows⟩

instance : NeverNull Handle where
  encode_ne_null _ h := by cases h

instance : NeverNull HostError where
  encode_ne_null _ h := by cases h

instance : NeverNull SignalOutput where
  encode_ne_null _ h := by cases h

instance : NeverNull BatchReport where
  encode_ne_null _ h := by cases h

/-! ## Optional fields of any type -/

namespace Codec

variable {α : Type} [Codec α]

/-- What an optional field is read as that was written with this value. -/
def kept (x : α) : Option α :=
  match encode x with
  | .null => none
  | _ => some x

theorem kept_of_null {x : α} (hx : encode x = .null) : kept x = none := by
  rw [kept, hx]

theorem kept_of_ne_null {x : α} (hx : encode x ≠ .null) : kept x = some x := by
  unfold kept
  split
  · next hnull => exact absurd hnull hx
  · rfl

theorem kept_eq_some_iff {x : α} : kept x = some x ↔ encode x ≠ .null := by
  constructor
  · intro hkept hnull
    rw [kept_of_null hnull] at hkept
    cases hkept
  · exact kept_of_ne_null

/-- An optional reader sees no value in `null`, also where a value was written so. -/
theorem decode?_option [Lawful α] {x : α} {place : Json.Place} (hx : Writable x)
    (hplace : depth α ≤ place.room) :
    (decode? place (encode x) : Option (Option α)) = some (kept x) := by
  have hread := decode?_encode hx hplace
  unfold kept
  generalize encode x = j at hread
  cases j with
  | null => rfl
  | _ => exact congrArg (Option.map some) hread

end Codec

/-! ## Envelopes -/

namespace Response

variable {β : Type}

/-- The result that an envelope holds: data if it says so, and else an error. -/
def result? : Response β → Option (Except HostError β)
  | ⟨true, some data, none⟩ => some (.ok data)
  | ⟨false, none, some error⟩ => some (.error error)
  | _ => none

theorem result?_eq_some_iff {e : Response β} {r : Except HostError β} :
    e.result? = some r ↔ e = ofResult r := by
  constructor
  · intro h
    unfold result? at h
    split at h
    · cases h
      rfl
    · cases h
      rfl
    · cases h
  · rintro rfl
    cases r <;> rfl

variable [Codec β]

/-- The envelope of an error is recovered, whatever the type of the data. -/
theorem read?_ofResult_error (e : HostError) :
    Codec.read? (Response β) (ofResult (.error e) : Response β).toJson =
      some (ofResult (.error e)) := by
  have hplain : Plain 2 (Codec.encode (ofResult (.error e) : Response β)) :=
    Plain.object <|
      plain_cons (x := false) trivial (by decide) <|
      plain_cons (x := e) trivial (by decide) plain_nil
  have hroom : depth HostError ≤ Json.Place.top.inside.room := by decide
  simp only [Codec.read?, toJson, Codec.write, hplain.parse?_text, Option.bind_some]
  refine bind_of_some (record?_object .top ?_ (by decide)) ?_
  · show ["ok", "error"].Sublist ["ok", "data", "error"]
    decide
  refine bind_of_some (required?_encode rfl (x := false) trivial (Nat.zero_le _)) ?_
  exact bind_of_some (b := none) rfl <|
    bind_of_some (Json.Record.optional?_encode (α := HostError) (x := some e) rfl
      (fun _ _ => trivial) hroom) rfl

/-- The envelope of a value is read with what an optional field keeps of the value. -/
theorem read?_ofResult_ok [Lawful β] {x : β} (hx : Writable x) (hdepth : depth β < Json.deepest) :
    Codec.read? (Response β) (ofResult (.ok x)).toJson =
      some { ok := true, data := Codec.kept x } := by
  have hplain : Plain (depth β + 1) (Codec.encode (ofResult (.ok x) : Response β)) :=
    Plain.object <|
      plain_cons (x := true) trivial (Nat.zero_le _) <|
      plain_cons hx (Nat.le_refl _) plain_nil
  have hroom : depth β ≤ Json.Place.top.inside.room := Nat.le_sub_one_of_lt hdepth
  simp only [Codec.read?, toJson, Codec.write, hplain.parse?_text, Option.bind_some]
  refine bind_of_some (record?_object .top ?_ (by decide)) ?_
  · show ["ok", "data"].Sublist ["ok", "data", "error"]
    decide
  refine bind_of_some (required?_encode rfl (x := true) trivial (Nat.zero_le _)) ?_
  exact bind_of_some (Codec.decode?_option hx hroom) rfl

end Response

/-- A host that reads the text of a result gets its envelope, and from it the result. -/
structure Recovers {β : Type} [Codec β] (r : Except HostError β) : Prop where
  envelope : Codec.read? (Response β) (Response.ofResult r).toJson = some (Response.ofResult r)
  result : (Codec.read? (Response β) (Response.ofResult r).toJson).bind Response.result? = some r

section Recovers

variable {β : Type} [Codec β] {r : Except HostError β}

theorem recovers_iff_read? : Recovers r ↔
    Codec.read? (Response β) (Response.ofResult r).toJson = some (Response.ofResult r) := by
  constructor
  · exact Recovers.envelope
  · intro h
    refine ⟨h, ?_⟩
    rw [h, Option.bind_some]
    exact Response.result?_eq_some_iff.mpr rfl

variable [Lawful β]

/-- A result is recovered exactly if its data are not written `null`. -/
theorem recovers_iff (hdepth : depth β < Json.deepest) (hr : ∀ x, r = .ok x → Writable x) :
    Recovers r ↔ ∀ x, r = .ok x → Codec.encode x ≠ .null := by
  rw [recovers_iff_read?]
  cases r with
  | error e => simp [Response.read?_ofResult_error]
  | ok x =>
      rw [Response.read?_ofResult_ok (hr x rfl) hdepth]
      simp [Response.ofResult, Codec.kept_eq_some_iff]

/-- Results whose data are never written `null` are always recovered. -/
theorem recovers_of_neverNull [NeverNull β] (hdepth : depth β < Json.deepest)
    (hr : ∀ x, r = .ok x → Writable x) : Recovers r :=
  (recovers_iff hdepth hr).mpr fun x hx => NeverNull.encode_ne_null (hr x hx)

end Recovers

theorem recovers_unit_iff {r : Except HostError Unit} : Recovers r ↔ r ≠ .ok () := by
  rw [recovers_iff (by decide) fun _ _ => trivial]
  constructor
  · intro h hr
    exact h () hr rfl
  · intro h x hx
    exact absurd hx h

theorem recovers_option_iff {β : Type} [Codec β] [Lawful β] [NeverNull β]
    {r : Except HostError (Option β)} (hdepth : depth β < Json.deepest)
    (hr : ∀ x, r = .ok (some x) → Writable x) : Recovers r ↔ r ≠ .ok none := by
  have hwritable : ∀ o, r = .ok o → Writable o := by
    intro o ho x hx
    exact hr x (by rw [ho, hx])
  rw [recovers_iff (β := Option β) hdepth hwritable]
  constructor
  · intro h hnone
    exact h none hnone rfl
  · intro h o ho
    cases o with
    | none => exact absurd ho h
    | some x =>
        show Codec.encode x ≠ .null
        exact NeverNull.encode_ne_null (hr x ho)

/-- The text of a result is read as an envelope that says `ok` and holds nothing. -/
def ReadsHollow {β : Type} [Codec β] (r : Except HostError β) : Prop :=
  Codec.read? (Response β) (Response.ofResult r).toJson = some { ok := true }

/-! ## What an engine tells its hosts -/

/-- A result of a call on an engine, by what the call gives when it succeeds. -/
inductive HostResult where
  /-- Of a call that only acts. -/
  | done (r : Except HostError Unit)
  /-- Of a look for the last output of an estimator. -/
  | latest (r : Except HostError (Option SignalOutput))
  | handle (r : Except HostError Handle)
  | output (r : Except HostError SignalOutput)
  | batch (r : Except HostError BatchReport)

namespace HostResult

/-- What is true of the result, whatever the type of its data. -/
def Is (P : ∀ {β : Type} [Codec β], Except HostError β → Prop) : HostResult → Prop
  | done r => P r
  | latest r => P r
  | handle r => P r
  | output r => P r
  | batch r => P r

/-- The data of the result can be written: floats are finite and counts fit in 64 bits. -/
def Writable : HostResult → Prop
  | done _ => True
  | latest r => ∀ o, r = .ok (some o) → o.Writable
  | handle _ => True
  | output r => ∀ o, r = .ok o → o.Writable
  | batch r => ∀ b, r = .ok b → b.Writable

/-- The call succeeded and there is nothing to tell. -/
def IsBare : HostResult → Prop
  | done r => r = .ok ()
  | latest r => r = .ok none
  | _ => False

end HostResult

/-- Every error, handle, output and report is recovered from its text.  Not recovered are the
success of a call that only acts and the answer that there is no output yet: they are read as
envelopes that say `ok` and hold nothing. -/
theorem envelopes_read_back {r : HostResult} (hr : r.Writable) :
    (r.Is Recovers ↔ ¬ r.IsBare) ∧ (r.IsBare → r.Is ReadsHollow) := by
  cases r with
  | done r =>
      refine ⟨recovers_unit_iff, ?_⟩
      rintro rfl
      exact Response.read?_ofResult_ok trivial (by decide)
  | latest r =>
      refine ⟨recovers_option_iff (by decide) hr, ?_⟩
      rintro rfl
      exact Response.read?_ofResult_ok (β := Option SignalOutput)
        (Json.Record.writable_none (α := SignalOutput)) (by decide)
  | handle r =>
      have hrecovers : Recovers r := recovers_of_neverNull (by decide) fun _ _ => trivial
      exact ⟨iff_of_true hrecovers not_false, False.elim⟩
  | output r =>
      have hrecovers : Recovers r := recovers_of_neverNull (by decide) hr
      exact ⟨iff_of_true hrecovers not_false, False.elim⟩
  | batch r =>
      have hrecovers : Recovers r := recovers_of_neverNull (by decide) hr
      exact ⟨iff_of_true hrecovers not_false, False.elim⟩

/-- The report of a batch with an output that has no last return, and a failure whose message
needs escapes; and the answer that there is no output yet. -/
theorem envelopes_read_back_escaped :
    let report : BatchReport :=
      { outputs := [⟨⟨"a"⟩, ⟨"X"⟩, ⟨7⟩, 0.1, .insufficientData 1 2, .garch 1e22 none⟩]
        failures := [⟨1, ⟨"b"⟩, .invalidInput "a\"\\\n😀"⟩]
        rowsProcessed := 2 }
    report.Writable ∧ Recovers (.ok report : Except HostError BatchReport) ∧
      ReadsHollow (.ok none : Except HostError (Option SignalOutput)) := by
  intro report
  have hreport : report.Writable := by
    refine ⟨?_, ?_, by decide⟩
    · intro o ho
      rw [List.mem_singleton.mp ho]
      refine ⟨by decide, ⟨by decide, by decide⟩, by decide, ?_⟩
      rintro r ⟨⟩
    · intro f hf
      rw [List.mem_singleton.mp hf]
      decide
  have hbatch := envelopes_read_back (r := .batch (.ok report)) (by rintro _ ⟨⟩; exact hreport)
  have hlatest := envelopes_read_back (r := .latest (.ok none)) (by rintro _ ⟨⟩)
  exact ⟨hreport, hbatch.1.mpr not_false, hlatest.2 rfl⟩

/-! ### An estimator that has seen nothing -/

/-- The slot of an order-flow estimator on `X`. -/
def quietSlot : Slot Alpha := freshSlot ⟨⟨"a"⟩, ⟨"X"⟩⟩ (.ofi (.start 100 .manual))

/-- The engine after its registration. -/
def quietEngine : Engine Alpha := ⟨.solo quietSlot, {}, {}, false⟩

theorem register_quiet :
    (Engine.start {} {}).register ⟨"a"⟩ ⟨"X"⟩ (.ofi { marketCap := 100 }) =
      (.ok ⟨0, 0⟩, quietEngine) := by
  have hbuild : (AlphaConfig.ofi { marketCap := 100 }).build =
      .ok (.ofi (.start 100 .manual)) := rfl
  have hslot : (freshSlot quietSlot.key (.ofi (.start 100 .manual))).host = quietSlot := rfl
  have hnew : ¬ (Registry.empty : Registry Alpha).arena.byKey.contains quietSlot.key = true := by
    rw [Bool.not_eq_true]
    exact Std.ExtHashMap.contains_empty
  have hinsert : (Registry.empty : Registry Alpha).arena.insert quietSlot =
      .ok (⟨0, 0⟩, (Registry.solo quietSlot).arena) := Registry.insert_empty quietSlot
  have hregister : (Registry.empty : Registry Alpha).register ⟨"a"⟩ ⟨"X"⟩
      (.ofi { marketCap := 100 }) = .ok (⟨0, 0⟩, .solo quietSlot) := by
    have h := Registry.register_eq (ε := Alpha) (r := .empty) (k := quietSlot.key) hbuild
    rw [if_neg hnew, hslot, hinsert] at h
    exact h
  unfold Engine.register Engine.call Engine.start
  simp only [Bool.false_eq_true, if_false, hregister]
  rfl

/-- The first calls on an estimator that has just been registered: a reset succeeds and there
is no output yet, and a host recovers neither answer from its text. -/
theorem quiet_answers_unrecovered :
    (Engine.start {} {}).register ⟨"a"⟩ ⟨"X"⟩ (.ofi { marketCap := 100 }) =
        (.ok ⟨0, 0⟩, quietEngine) ∧
      (quietEngine.reset ⟨0, 0⟩).1 = .ok () ∧ ¬ Recovers (quietEngine.reset ⟨0, 0⟩).1 ∧
      quietEngine.latest ⟨0, 0⟩ = .ok none ∧ ¬ Recovers (quietEngine.latest ⟨0, 0⟩) := by
  have hreset : (quietEngine.reset ⟨0, 0⟩).1 = .ok () := rfl
  have hlatest : quietEngine.latest ⟨0, 0⟩ = .ok none := by
    have hnone : (∅ : Std.ExtHashMap Handle SignalOutput)[(⟨0, 0⟩ : Handle)]? = none :=
      Std.ExtHashMap.getElem?_empty
    show Except.ok (∅ : Std.ExtHashMap Handle SignalOutput)[(⟨0, 0⟩ : Handle)]? = .ok none
    rw [hnone]
  refine ⟨register_quiet, hreset, ?_, hlatest, ?_⟩
  · rw [recovers_unit_iff, hreset]
    simp
  · rw [hlatest, recovers_option_iff (by decide) (by rintro _ ⟨⟩)]
    simp

end MarketSignals
