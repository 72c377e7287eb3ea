import Std.Data.ExtHashMap
import MarketSignals.Registry.Handle
import MarketSignals.Registry.Slot

/-!
# The arena of slots

Slots live in entries that are reused, the last freed first.  Two indexes stand
beside the entries: the handle of each pair of names, and for each instrument the
handles on it in the order of registration.
-/

namespace MarketSignals

/-- The pair of names that an estimator is registered under. -/
structure SlotKey where
  alphaId : AlphaId
  instrumentId : InstrumentId
  deriving Repr, DecidableEq, Hashable

instance : EquivBEq SlotKey := inferInstance

instance : LawfulHashable SlotKey := inferInstance

/-- A place for a slot.  The generation counts the removals from it, up to the
width of a word. -/
structure Entry (ε : Type) where
  generation : UInt32
  slot : Option (Slot ε)

/-- Entries, free entries and indexes. -/
structure Arena (ε : Type) where
  entries : Array (Entry ε)
  /-- Indices of entries without a slot, last freed first. -/
  free : List UInt32
  byKey : Std.ExtHashMap SlotKey Handle
  /-- Handles on each instrument that has any, in order of registration. -/
  byInstrument : Std.ExtHashMap InstrumentId (List Handle)

/-- The names a slot is registered under. -/
def Slot.key {ε : Type} (s : Slot ε) : SlotKey := ⟨s.alphaId, s.instrumentId⟩

namespace Arena

variable {ε : Type}

/-- No entries. -/
def empty : Arena ε := ⟨#[], [], ∅, ∅⟩

/-- The entry that a handle names, if its generation is still the handle's. -/
def entry? (a : Arena ε) (h : Handle) : Option (Entry ε) :=
  a.entries[h.index.toNat]?.filter (·.generation == h.generation)

/-- The slot that a handle reaches. -/
def get? (a : Arena ε) (h : Handle) : Option (Slot ε) := (a.entry? h).bind (·.slot)

/-- Whether a handle reaches a slot. -/
def isLive (a : Arena ε) (h : Handle) : Bool := (a.get? h).isSome

/-- The handles on an instrument, in order of registration. -/
def handlesOn (a : Arena ε) (instrumentId : InstrumentId) : List Handle :=
  a.byInstrument.getD instrumentId []

/-- The number of slots. -/
def size (a : Arena ε) : Nat := a.byKey.size

/-- The most entries that handles can tell apart. -/
def capacity : Nat := UInt32.size

/-- An entry for a new slot: the last freed one, or a new one at the end. -/
def allocate (a : Arena ε) : Except EngineError (UInt32 × Arena ε) :=
  match a.free with
  | index :: free => .ok (index, { a with free })
  | [] =>
      if a.entries.size < capacity then
        .ok (UInt32.ofNat a.entries.size, { a with entries := a.entries.push ⟨0, none⟩ })
      else .error (.invariant "estimator arena is full")

/-- Puts a slot into the entry at `index`. -/
def occupy (a : Arena ε) (index : UInt32) (slot : Slot ε) : Arena ε :=
  { a with entries := a.entries.modify index.toNat fun e => { e with slot := some slot } }

/-- Replaces the slot that a handle reaches; a handle that reaches none changes
nothing. -/
def store (a : Arena ε) (h : Handle) (slot : Slot ε) : Arena ε :=
  if a.isLive h then a.occupy h.index slot else a

/-- Adds a slot to both indexes. -/
def link (a : Arena ε) (h : Handle) (key : SlotKey) : Arena ε :=
  { a with
    byKey := a.byKey.insert key h
    byInstrument := a.byInstrument.insert key.instrumentId (a.handlesOn key.instrumentId ++ [h]) }

/-- Takes a slot out of both indexes.  An instrument without estimators leaves
the index. -/
def unlink (a : Arena ε) (h : Handle) (key : SlotKey) : Arena ε :=
  let rest := (a.handlesOn key.instrumentId).filter (· != h)
  { a with
    byKey := a.byKey.erase key
    byInstrument :=
      if rest.isEmpty then a.byInstrument.erase key.instrumentId
      else a.byInstrument.insert key.instrumentId rest }

/-- Registers a slot under its names. -/
def insert (a : Arena ε) (slot : Slot ε) : Except EngineError (Handle × Arena ε) := do
  let (index, a) ← a.allocate
  let generation := (a.entries[index.toNat]?.map (·.generation)).getD 0
  let h : Handle := ⟨index, generation⟩
  return (h, (a.occupy index slot).link h slot.key)

/-- Frees the entry at `index` and moves its generation on. -/
def vacate (a : Arena ε) (index : UInt32) : Arena ε :=
  { a with
    entries := a.entries.modify index.toNat fun e => ⟨e.generation + 1, none⟩
    free := index :: a.free }

/-- Removes the slot that a handle reaches. -/
def remove? (a : Arena ε) (h : Handle) : Option (Slot ε × Arena ε) :=
  (a.get? h).map fun slot => (slot, (a.vacate h.index).unlink h slot.key)

/-- The slots on an instrument, in order of registration. -/
def slotsOn (a : Arena ε) (instrumentId : InstrumentId) : List (Handle × Slot ε) :=
  (a.handlesOn instrumentId).filterMap fun h => (a.get? h).map (h, ·)

/-- The handles of all slots, in order of their entries. -/
def liveHandles (a : Arena ε) : List Handle :=
  a.entries.toList.zipIdx.filterMap fun (e, index) =>
    e.slot.map fun _ => ⟨UInt32.ofNat index, e.generation⟩

end Arena

end MarketSignals
