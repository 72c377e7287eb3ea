import MarketSignals.Json.Codec

/-!
# Handles

A handle names an arena entry by its index and the generation that the entry had
when the estimator was registered.  The generation moves on when the estimator
is removed, so an old handle does not reach a newer occupant until the 32-bit
generation has come round.
-/

namespace MarketSignals

/-- A reference to a registered estimator. -/
structure Handle where
  index : UInt32
  generation : UInt32
  deriving Repr, DecidableEq, Hashable

instance : EquivBEq Handle := inferInstance

instance : LawfulHashable Handle := inferInstance

namespace Handle

/-- The handle packed into one integer, the generation in the upper half. -/
def toRaw (h : Handle) : UInt64 := h.generation.toUInt64 <<< 32 ||| h.index.toUInt64

/-- The handle that an integer packs; every integer packs one. -/
def ofRaw (raw : UInt64) : Handle := ⟨raw.toUInt32, (raw >>> 32).toUInt32⟩

/-- How a handle reads in messages. -/
def text (h : Handle) : String := s!"#{h.index.toNat}@{h.generation.toNat}"

instance : Codec Handle where
  encode h := Json.object
    [("index", Codec.encode h.index), ("generation", Codec.encode h.generation)]
  decode? place j := do
    let r ← Json.record? ["index", "generation"] place j
    some {
      index := ← r.required? UInt32 "index"
      generation := ← r.required? UInt32 "generation" }

end Handle

end MarketSignals
