import MarketSignals.Decimal.Digits

/-!
# Written numerals

A `Numeral` is a number as it stands on paper: sign, digits before and after
the point, exponent.  It is what a text reader finds and what a printer lays
out; `Numeral.toFloat?` and `Style.numeral?` connect it with floats.

A `Style` records the decisions of one way of writing floats.  The library
writes floats in three ways, each a value of this record: in messages, in JSON
texts, and in scientific form.
-/

namespace MarketSignals.Decimal

/-- A number as written, in decimal digits. -/
structure Numeral where
  negative : Bool
  /-- Digits before the point, at least one. -/
  whole : List Char
  /-- Digits after the point; none means that there is no point. -/
  fraction : List Char
  exponent : Option Int
  deriving Repr, DecidableEq

namespace Numeral

/-- The value of a run of digits. -/
def digitsValue (digits : List Char) : Nat :=
  digits.foldl (fun acc c => 10 * acc + (c.toNat - '0'.toNat)) 0

/-- The numeral of a count. -/
def ofNat (n : Nat) : Numeral := ⟨false, Nat.toDigits 10 n, [], none⟩

/-- The numeral of an integer. -/
def ofInt (n : Int) : Numeral := ⟨n < 0, Nat.toDigits 10 n.natAbs, [], none⟩

/-- The count that a numeral writes: digits only, with no sign, point or
exponent. -/
def toNat? (n : Numeral) : Option Nat :=
  if n.negative = false ∧ n.fraction = [] ∧ n.exponent = none then
    some (digitsValue n.whole)
  else none

/-- The float nearest to the number written, or none where that is beyond the
greatest float.  A magnitude below the least float reads as a zero of the same
sign.  Exponents far out of range are answered without computing the power. -/
def toFloat? (n : Numeral) : Option Float :=
  let coefficient := digitsValue (n.whole ++ n.fraction)
  let exponent := n.exponent.getD 0 - n.fraction.length
  let signed (x : Float) := if n.negative then -x else x
  if coefficient = 0 then some (signed 0)
  else
    let leading := exponent + digitCount coefficient
    if leading > 310 then none
    else if leading < -330 then some (signed 0)
    else
      let x := Float.ofScientific coefficient (exponent < 0) exponent.natAbs
      if x.isFinite then some (signed x) else none

/-- The text of a numeral.  `plus` asks for the sign of an exponent that is not
negative. -/
def chars (plus : Bool) (n : Numeral) : List Char :=
  (if n.negative then ['-'] else []) ++ n.whole ++
    (if n.fraction = [] then [] else '.' :: n.fraction) ++
    match n.exponent with
    | none => []
    | some e =>
        'e' :: (if e < 0 then ['-'] else if plus then ['+'] else []) ++
          Nat.toDigits 10 e.natAbs

end Numeral

/-- The decisions of one way of writing a float. -/
structure Style where
  /-- Which of two equally short and equally near decimals is written. -/
  tie : Tie
  /-- Exponents of the leading digit that are written without an exponent. -/
  positional : Int → Bool
  /-- Whether a whole number written without an exponent ends in `.0`. -/
  pointZero : Bool

namespace Style

/-- Lays digits out, the point after, inside or before them. -/
def layOut (style : Style) (negative : Bool) (d : Digits) : Numeral :=
  let digits := Nat.toDigits 10 d.coefficient
  let leading := d.exponent + digits.length - 1
  if style.positional leading then
    if 0 ≤ d.exponent then
      ⟨negative, digits ++ List.replicate d.exponent.toNat '0',
        if style.pointZero then ['0'] else [], none⟩
    else if 0 ≤ leading then
      let places := leading.toNat + 1
      ⟨negative, digits.take places, digits.drop places, none⟩
    else
      ⟨negative, ['0'], List.replicate (-leading - 1).toNat '0' ++ digits, none⟩
  else ⟨negative, digits.take 1, digits.drop 1, some leading⟩

/-- The numeral of a finite float: the fewest digits that read back. -/
def numeral? (style : Style) (x : Float) : Option Numeral :=
  match FloatValue.of x with
  | .undefined | .infinite _ => none
  | .zero negative => some (style.layOut negative ⟨0, 0⟩)
  | .finite negative magnitude => some (style.layOut negative (magnitude.shortest style.tie))

/-- The notation of messages: positional whatever the size, whole numbers
without a point. -/
def message : Style := ⟨.up, fun _ => true, false⟩

/-- The notation of JSON texts: positional for exponents from -5 to 15, always
with a point there. -/
def json : Style := ⟨.toEven, fun e => -5 ≤ e && e ≤ 15, true⟩

/-- The scientific notation: always with an exponent. -/
def scientific : Style := ⟨.up, fun _ => false, false⟩

end Style

/-- The text of a float that no numeral writes. -/
def exceptionalText (x : Float) : String :=
  if x.isNaN then "NaN" else if x < 0 then "-inf" else "inf"

/-- A float written in a notation, with the names of the values that have no
digits. -/
def write (style : Style) (x : Float) : String :=
  match style.numeral? x with
  | some n => String.ofList (n.chars false)
  | none => exceptionalText x

/-- The text of a float inside a message. -/
def text (x : Float) : String := write .message x

/-- A float to `count` significant digits in scientific form, trailing zeros
kept.  Zero of either sign is written `0`. -/
def significant (count : Nat) (x : Float) : String :=
  match FloatValue.of x with
  | .undefined | .infinite _ => exceptionalText x
  | .zero _ => "0"
  | .finite negative magnitude =>
      String.ofList ((Style.scientific.layOut negative (magnitude.rounded count)).chars false)

end MarketSignals.Decimal
