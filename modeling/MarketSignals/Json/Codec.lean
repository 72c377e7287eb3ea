import MarketSignals.Json.Printer
import MarketSignals.Json.Reader

/-!
# Values of a type as JSON

A `Codec` writes the values of a type and reads them back.  Reading is more
generous than writing: members come in any order, unknown members are skipped,
defaults fill what is missing, and a record may stand as the list of its fields.

A value can stand in two kinds of place.  Most are read straight from the text.
A *tagged* value, whose shape depends on a tag among its own members, is held
as a whole until the tag is known; what it holds must then make sense even
where it is skipped (`holdable`), and within it two more spellings are accepted
(`variant?`, `choice?`).
-/

namespace MarketSignals

open Decimal (Numeral)

namespace Json

/-- Where a value stands. -/
inductive Place where
  /-- Read straight from the text, inside `depth` brackets. -/
  | direct (depth : Nat)
  /-- Inside a tagged value that is held as a whole. -/
  | held
  deriving Repr, DecidableEq

/-- The place of the whole text. -/
def Place.top : Place := .direct 0

/-- The place of what a bracket encloses. -/
def Place.inside : Place → Place
  | .direct depth => .direct (depth + 1)
  | .held => .held

/-- The deepest nesting of a value that is held. -/
def deepest : Nat := 127

mutual

/-- Whether a value can be held with `room` levels of brackets to go: every
string names a text, every number has a float, and it is not too deep. -/
def holdable : (room : Nat) → Json → Bool
  | _, null => true
  | _, bool _ => true
  | _, num n => n.toFloat?.isSome
  | _, str s => s.isSome
  | 0, arr _ => false
  | 0, obj _ => false
  | room + 1, arr items => holdableItems room items
  | room + 1, obj members => holdableMembers room members

/-- Whether all items can be held. -/
def holdableItems : (room : Nat) → List Json → Bool
  | _, [] => true
  | room, x :: rest => holdable room x && holdableItems room rest

/-- Whether all members can be held. -/
def holdableMembers : (room : Nat) → List (Option String × Json) → Bool
  | _, [] => true
  | room, (k, x) :: rest => k.isSome && holdable room x && holdableMembers room rest

end

end Json

/-- How the values of a type are written and read. -/
class Codec (α : Type) where
  /-- The value that is written. -/
  encode : α → Json
  /-- Reads a value that stands in the given place. -/
  decode? : Json.Place → Json → Option α

namespace Codec

/-- The compact text of a value. -/
def write {α : Type} [Codec α] (x : α) : String := (encode x).text

/-- Reads a whole text as a value of the given type. -/
def read? (α : Type) [Codec α] (text : String) : Option α :=
  (Json.parse? text).bind (decode? Json.Place.top)

instance : Codec Bool where
  encode := .bool
  decode? _
    | .bool b => some b
    | _ => none

/-- Counts are written as plain digits and fit in 64 bits. -/
instance : Codec Nat where
  encode := Json.ofNat
  decode? _
    | .num n => n.toNat?.filter (· < UInt64.size)
    | _ => none

instance : Codec UInt64 where
  encode n := Json.ofNat n.toNat
  decode? place j := (decode? place j : Option Nat).map UInt64.ofNat

instance : Codec UInt32 where
  encode n := Json.ofNat n.toNat
  decode? place j := ((decode? place j : Option Nat).filter (· < UInt32.size)).map UInt32.ofNat

/-- Any number in range reads as a float, whole numbers included. -/
instance : Codec Float where
  encode := Json.ofFloat
  decode? _
    | .num n => n.toFloat?
    | _ => none

instance : Codec String where
  encode := Json.ofString
  decode? _
    | .str s => s
    | _ => none

/-- The absence of a result. -/
instance : Codec Unit where
  encode _ := .null
  decode? _
    | .null => some ()
    | _ => none

instance {α : Type} [Codec α] : Codec (Option α) where
  encode
    | none => .null
    | some x => encode x
  decode? place
    | .null => some none
    | j => (decode? place j).map some

instance {α : Type} [Codec α] : Codec (List α) where
  encode xs := .arr (xs.map encode)
  decode? place
    | .arr items => items.mapM (decode? place.inside)
    | _ => none

end Codec

namespace Json

/-! ## Records -/

/-- The fields found in a value that stands for a record. -/
structure Record where
  /-- Where the fields stand. -/
  place : Place
  /-- Whether the record was written as the list of its fields. -/
  listed : Bool
  fields : List (String × Json)

/-- The members of an object that have one of the given names; none if a name
is not a text or a known name is repeated. -/
def knownMembers? (names : List String) (members : List (Option String × Json)) :
    Option (List (String × Json)) := do
  let named ← members.mapM fun m => m.1.map fun k => (k, m.2)
  let known := named.filter fun m => names.contains m.1
  if (known.map (·.1)).Nodup then some known else none

/-- Views a value as a record with the given field names: an object, or the
list of the fields in order, where fields at the end may be missing. -/
def record? (names : List String) (place : Place) : Json → Option Record
  | .obj members => (knownMembers? names members).map (⟨place.inside, false, ·⟩)
  | .arr items =>
      if items.length ≤ names.length then some ⟨place.inside, true, names.zip items⟩ else none
  | _ => none

namespace Record

variable {α : Type} [Codec α]

/-- The value of a field, if it is present. -/
def get? (r : Record) (name : String) : Option Json := r.fields.lookup name

/-- A field that must be present. -/
def required? (α : Type) [Codec α] (r : Record) (name : String) : Option α :=
  (r.get? name).bind (Codec.decode? r.place)

/-- A field with a default. -/
def default? (r : Record) (name : String) (fallback : α) : Option α :=
  match r.get? name with
  | none => some fallback
  | some j => Codec.decode? r.place j

/-- An optional field: absent and null both mean that there is no value. -/
def optional? (α : Type) [Codec α] (r : Record) (name : String) : Option (Option α) :=
  r.default? name none

/-- An optional field that a list of fields must nevertheless hold. -/
def nullable? (α : Type) [Codec α] (r : Record) (name : String) : Option (Option α) :=
  if r.listed then r.required? (Option α) name else r.optional? α name

end Record

/-! ## Tagged values and plain cases -/

/-- The case that a tag names.  A held tag may also be the position of the case. -/
def variant? {α : Type} (cases : List (String × α)) (place : Place) : Json → Option α
  | .str (some s) => cases.lookup s
  | .num n =>
      match place with
      | .direct _ => none
      | .held => (n.toNat?.bind (cases[·]?)).map (·.2)
  | _ => none

/-- Splits a tagged value into its case and what is left of it, which stands
held.  The tag is a member of an object, or the first item of a list. -/
def tagged? {α : Type} (tag : String) (cases : List (String × α)) (place : Place) (j : Json) :
    Option (α × Json) := do
  let room := match place with
    | .direct depth => deepest - depth
    | .held => deepest
  if holdable room j then
    match j with
    | .obj members =>
        match members.partition fun m => m.1 == some tag with
        | ([(_, t)], rest) => (variant? cases place t).map (·, .obj rest)
        | _ => none
    | .arr (t :: rest) => (variant? cases place t).map (·, .arr rest)
    | _ => none
  else none

/-- What is left of a tagged value whose case has no fields: any members, but no
items. -/
def noFields? : Json → Option Unit
  | .obj _ => some ()
  | .arr [] => some ()
  | _ => none

/-- A tagged value with its tag in front. -/
def tagged (tag name : String) (members : List (String × Json)) : Json :=
  object ((tag, ofString name) :: members)

/-- A plain case: its name, or an object that maps the name to null.  A held one
may map it to an empty object instead. -/
def choice? {α : Type} (cases : List (String × α)) (place : Place) : Json → Option α
  | .str (some s) => cases.lookup s
  | .obj [(some s, .null)] => cases.lookup s
  | .obj [(some s, .obj [])] => if place = .held then cases.lookup s else none
  | _ => none

end Json

end MarketSignals
