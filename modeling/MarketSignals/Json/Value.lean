import MarketSignals.Decimal.Numeral

/-!
# JSON values

The tree of a JSON text.  Numbers keep the digits they were written with, so a
reader of a field can tell `1` from `1.0` and decides itself what fits.  Objects
keep their members in order, repeated keys included, for the same reason.

A string may spell an unpaired surrogate by an escape.  Such a string is good
JSON but names no text; it is kept as `none`, and only a reader that skips the
value accepts it.
-/

namespace MarketSignals

open Decimal (Numeral)

/-- A JSON value. -/
inductive Json where
  | null
  | bool (value : Bool)
  | num (value : Numeral)
  | str (text : Option String)
  | arr (items : List Json)
  | obj (members : List (Option String × Json))
  deriving Repr

namespace Json

/-- A string that names its text. -/
def ofString (s : String) : Json := .str (some s)

/-- The number of a count. -/
def ofNat (n : Nat) : Json := .num (Numeral.ofNat n)

/-- A finite float in JSON digits; the others have no number and are written
`null`. -/
def ofFloat (x : Float) : Json :=
  match Decimal.Style.json.numeral? x with
  | some n => .num n
  | none => .null

/-- An object with the given members. -/
def object (members : List (String × Json)) : Json :=
  .obj (members.map fun m => (some m.1, m.2))

end Json

end MarketSignals
