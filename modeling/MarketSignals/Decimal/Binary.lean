/-!
# The exact value of a float

A finite float is a whole number times a power of two.  This module reads that
value off the sixty-four bits, which is the only thing the decimal printers
need to know about floats: everything after it is arithmetic on naturals.
-/

namespace MarketSignals.Decimal

/-- The positive number `mantissa · 2^exponent`. -/
structure Dyadic where
  mantissa : Nat
  exponent : Int
  deriving Repr, DecidableEq

/-- What the bits of a float stand for. -/
inductive FloatValue where
  | undefined
  | infinite (negative : Bool)
  | zero (negative : Bool)
  | finite (negative : Bool) (magnitude : Dyadic)
  deriving Repr, DecidableEq

/-- The least exponent of a float, that of the subnormal numbers. -/
def leastExponent : Int := -1074

/-- The least mantissa of a normal float. -/
def normalMantissa : Nat := Nat.pow 2 52

/-- Reads sign, exponent and mantissa off the bits. -/
def FloatValue.of (x : Float) : FloatValue :=
  let bits : Nat := x.toBits.toNat
  let negative := bits / Nat.pow 2 63 == 1
  let biased : Nat := bits / normalMantissa % Nat.pow 2 11
  let stored : Nat := bits % normalMantissa
  if biased = 2047 then
    if stored = 0 then .infinite negative else .undefined
  else if biased = 0 then
    if stored = 0 then .zero negative else .finite negative ⟨stored, leastExponent⟩
  else .finite negative ⟨normalMantissa + stored, leastExponent + ((biased - 1 : Nat) : Int)⟩

/-- A dyadic number as a quotient of naturals. -/
def Dyadic.quotient (x : Dyadic) : Nat × Nat :=
  (x.mantissa * Nat.pow 2 x.exponent.toNat, Nat.pow 2 (-x.exponent).toNat)

end MarketSignals.Decimal
