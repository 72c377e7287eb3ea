/-!
# Scalars

The recurrences of this library are written once, over any type that has the
field operations, an order test and a finiteness test.  A running engine uses
`Float`; a statement about exact arithmetic uses the same definitions over an
exact field, where every number is finite.

The natural logarithm is part of the interface.  On `Float` its values at the
points where the standard fixes them exactly (a negative argument, either
zero, one, infinity) are written out, and the platform's logarithm is asked
everywhere else.  The platform is a parameter: the running engine takes the one
it finds, and a statement may be about any.
-/

namespace MarketSignals

/-- What the recurrences ask of a number.  The two order tests are separate
because neither is the negation of the other where a number may fail to
compare with itself. -/
class Scalar (α : Type) extends Add α, Sub α, Mul α, Div α, Neg α, LT α, LE α where
  /-- The number that a count stands for, rounded where it has no exact one. -/
  ofCount : Nat → α
  /-- The magnitude of a number. -/
  abs : α → α
  /-- Whether a number is neither infinite nor undefined. -/
  isFinite : α → Bool
  /-- The natural logarithm. -/
  ln : α → α
  /-- Strict comparison is decided. -/
  decLt : ∀ a b : α, Decidable (a < b)
  /-- Comparison is decided. -/
  decLe : ∀ a b : α, Decidable (a ≤ b)

namespace Scalar

variable {α : Type}

instance [Scalar α] : DecidableLT α := decLt

instance [Scalar α] : DecidableLE α := decLe

/-- A numeral denotes the number of its count. -/
instance (priority := low) [Scalar α] (n : Nat) : OfNat α n := ⟨ofCount n⟩

/-- The loop of `power`: `rounds` bounds the number of squarings, `base` is the
current square, `count` the exponent that is left and `acc` the product so
far. -/
def powerLoop [Scalar α] : (rounds : Nat) → (base : α) → (count : Nat) → (acc : α) → α
  | 0, _, _, acc => acc
  | rounds + 1, base, count, acc =>
      let acc := if count % 2 = 1 then acc * base else acc
      if count / 2 = 0 then acc else powerLoop rounds (base * base) (count / 2) acc

/-- An integer power by repeated squaring.  A negative exponent takes the
reciprocal of the positive power, so it is rounded once more.  Exponents fit in
32 bits. -/
def power [Scalar α] (base : α) (exponent : Int) : α :=
  let magnitude := powerLoop 32 base exponent.natAbs 1
  if exponent < 0 then 1 / magnitude else magnitude

end Scalar

/-- What is taken from the platform's mathematical library. -/
class MathLibrary where
  /-- The natural logarithm of a positive number. -/
  log : Float → Float

instance : MathLibrary := ⟨Float.log⟩

/-- The natural logarithm of a float, with the exactly known values written
out. -/
def ln [MathLibrary] (x : Float) : Float :=
  if x < 0 then 0 / 0
  else if x == 0 then -1 / 0
  else if x == 1 then 0
  else if x == 1 / 0 then x
  else MathLibrary.log x

/-- The exponential of a float, with the exactly known values written out. -/
def exp (x : Float) : Float :=
  if x == 0 then 1
  else if x == 1 / 0 then x
  else if x == -1 / 0 then 0
  else x.exp

instance [MathLibrary] : Scalar Float where
  ofCount := Float.ofNat
  abs := Float.abs
  isFinite := Float.isFinite
  ln := MarketSignals.ln
  decLt := inferInstance
  decLe := inferInstance

end MarketSignals
