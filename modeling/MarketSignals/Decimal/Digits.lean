import MarketSignals.Decimal.Binary

/-!
# Choosing decimal digits

Two questions are answered here in exact arithmetic.  `Dyadic.shortest` gives
the fewest digits that still read back to the same float, and among those the
nearest to it.  `Dyadic.rounded` gives the value to a set number of digits,
rounded from the exact binary value with ties to the even neighbour.

A float owns the interval of reals that round to it: halfway to each
neighbour, ends included exactly when its mantissa is even.  A decimal reads
back exactly when it lies in that interval.  If some decimal with a given
number of digits lies in it, then so does one of the two such decimals next to
the float, so only those two are tried for each length.
-/

namespace MarketSignals.Decimal

/-- The decimal number `coefficient · 10^exponent`. -/
structure Digits where
  coefficient : Nat
  exponent : Int
  deriving Repr, DecidableEq

/-- Which of two equally near decimals is taken. -/
inductive Tie where
  | toEven
  | up
  deriving Repr, DecidableEq

/-- The number of decimal digits of a natural. -/
def digitCount (n : Nat) : Nat := (Nat.toDigits 10 n).length

/-- The exponent of the leading decimal digit of `num / den`: the greatest
power of ten that is not above the quotient. -/
def leadingExponent (num den : Nat) : Int :=
  if den ≤ num then (digitCount (num / den) : Int) - 1
  else -(digitCount ((den + num - 1) / num - 1) : Int)

/-- The quotient `num / den` counted in units of `10^place`. -/
def inUnits (num den : Nat) (place : Int) : Nat × Nat :=
  (num * Nat.pow 10 (-place).toNat, den * Nat.pow 10 place.toNat)

/-- Drops trailing zeros; `fuel` bounds their number. -/
def Digits.trimmed : (fuel : Nat) → Digits → Digits
  | 0, d => d
  | fuel + 1, d =>
      if d.coefficient ≠ 0 ∧ d.coefficient % 10 = 0 then
        Digits.trimmed fuel ⟨d.coefficient / 10, d.exponent + 1⟩
      else d

/-- Whether `d` lies in the interval of reals that round to the float of
magnitude `x`.  The distances to the neighbours are counted in quarters of a
unit of the mantissa; the neighbour below a power of two is nearer. -/
def Dyadic.owns (x : Dyadic) (d : Digits) : Bool :=
  let below := if x.mantissa = normalMantissa ∧ x.exponent ≠ leastExponent then 1 else 2
  let quarters := x.exponent - 2
  let scale (n : Nat) := n * Nat.pow 2 quarters.toNat * Nat.pow 10 (-d.exponent).toNat
  let value := d.coefficient * Nat.pow 10 d.exponent.toNat * Nat.pow 2 (-quarters).toNat
  let low := scale (4 * x.mantissa - below)
  let high := scale (4 * x.mantissa + 2)
  if x.mantissa % 2 = 0 then low ≤ value && value ≤ high else low < value && value < high

/-- The nearest decimal of `count` digits that reads back, if one does. -/
def Dyadic.shortestOf (x : Dyadic) (tie : Tie) (count : Nat) : Option Digits :=
  let (num, den) := x.quotient
  let place := leadingExponent num den - count + 1
  let (num, den) := inUnits num den place
  let floor : Digits := ⟨num / den, place⟩
  let ceiling : Digits := ⟨num / den + 1, place⟩
  match x.owns floor, x.owns ceiling with
  | true, true =>
      let twice := 2 * (num % den)
      let upper : Bool := match tie with
        | .up => den ≤ twice
        | .toEven => den < twice || (den == twice && floor.coefficient % 2 == 1)
      some (if upper then ceiling else floor)
  | true, false => some floor
  | false, true => some ceiling
  | false, false => none

/-- The fewest digits that read back to the float of magnitude `x`, nearest to
it among those.  Seventeen always suffice. -/
def Dyadic.shortest (x : Dyadic) (tie : Tie) : Digits :=
  let found := (List.range 17).findSome? fun n => x.shortestOf tie (n + 1)
  Digits.trimmed 17 (found.getD ⟨x.mantissa, 0⟩)

/-- The value to `count` significant digits, ties to even.  Rounding up to a
power of ten keeps the number of digits. -/
def Dyadic.rounded (x : Dyadic) (count : Nat) : Digits :=
  let (num, den) := x.quotient
  let place := leadingExponent num den - count + 1
  let (num, den) := inUnits num den place
  let floor := num / den
  let twice := 2 * (num % den)
  let chosen := if den < twice ∨ (den = twice ∧ floor % 2 = 1) then floor + 1 else floor
  if chosen = Nat.pow 10 count then ⟨Nat.pow 10 (count - 1), place + 1⟩ else ⟨chosen, place⟩

end MarketSignals.Decimal
