import MarketSignals.Json.Value

/-!
# Reading JSON

`Json.parse?` reads a whole text as one value.  The grammar is the standard
one: no comments, no trailing commas, no leading zeros, no raw control
characters in strings, nothing but blanks after the value.

The scanners work on the characters that are left and return what remains.
The recursion over nested values is bounded by the length of the text, since
each level consumes at least its opening bracket.
-/

namespace MarketSignals.Json

open Decimal (Numeral)

/-- The four blanks of the grammar. -/
def isBlank (c : Char) : Bool := c = ' ' || c = '\t' || c = '\n' || c = '\r'

/-- Passes over blanks. -/
def skipBlanks (s : List Char) : List Char := s.dropWhile isBlank

/-- Passes over the characters of a fixed word. -/
def expect? : (word s : List Char) → Option (List Char)
  | [], s => some s
  | _ :: _, [] => none
  | w :: word, c :: s => if w = c then expect? word s else none

/-! ## Numbers -/

/-- A run of digits, at least one. -/
def digits? (s : List Char) : Option (List Char × List Char) :=
  let run := s.takeWhile Char.isDigit
  if run.isEmpty then none else some (run, s.dropWhile Char.isDigit)

/-- The digits before the point: a lone zero, or a run that starts with another
digit. -/
def whole? : List Char → Option (List Char × List Char)
  | '0' :: s => if (s.head?.any Char.isDigit) then none else some (['0'], s)
  | s => digits? s

/-- The point and the digits after it, if there is a point. -/
def fraction? : List Char → Option (List Char × List Char)
  | '.' :: s => digits? s
  | s => some ([], s)

/-- The sign of an exponent. -/
def exponentSign : List Char → Bool × List Char
  | '-' :: s => (true, s)
  | '+' :: s => (false, s)
  | s => (false, s)

/-- The exponent, if there is one. -/
def exponent? (s : List Char) : Option (Option Int × List Char) :=
  match s with
  | c :: s' =>
      if c = 'e' || c = 'E' then do
        let (negative, rest) := exponentSign s'
        let (run, rest) ← digits? rest
        let magnitude : Int := Numeral.digitsValue run
        some (some (if negative then -magnitude else magnitude), rest)
      else some (none, s)
  | [] => some (none, [])

/-- The sign of a number. -/
def sign : List Char → Bool × List Char
  | '-' :: s => (true, s)
  | s => (false, s)

/-- A number. -/
def number? (s : List Char) : Option (Numeral × List Char) := do
  let (negative, s) := sign s
  let (whole, s) ← whole? s
  let (fraction, s) ← fraction? s
  let (exponent, s) ← exponent? s
  some (⟨negative, whole, fraction, exponent⟩, s)

/-! ## Strings -/

/-- What a string spells at one place: a character, or a 16-bit unit given by an
escape. -/
inductive Piece where
  | char (c : Char)
  | unit (u : Nat)
  deriving Repr, DecidableEq

/-- The value of a hexadecimal digit. -/
def hexValue? (c : Char) : Option Nat :=
  if '0' ≤ c ∧ c ≤ '9' then some (c.toNat - '0'.toNat)
  else if 'a' ≤ c ∧ c ≤ 'f' then some (c.toNat - 'a'.toNat + 10)
  else if 'A' ≤ c ∧ c ≤ 'F' then some (c.toNat - 'A'.toNat + 10)
  else none

/-- The unit given by four hexadecimal digits. -/
def unit? (a b c d : Char) : Option Nat := do
  some (4096 * (← hexValue? a) + 256 * (← hexValue? b) + 16 * (← hexValue? c) + (← hexValue? d))

/-- The character that a one-letter escape stands for. -/
def unescape? (c : Char) : Option Char :=
  if c = '"' ∨ c = '\\' ∨ c = '/' then some c
  else if c = 'b' then some '\x08'
  else if c = 'f' then some '\x0c'
  else if c = 'n' then some '\n'
  else if c = 'r' then some '\r'
  else if c = 't' then some '\t'
  else none

/-- The pieces of a string up to its closing quote. -/
def pieces? : List Char → Option (List Piece × List Char)
  | [] => none
  | '"' :: s => some ([], s)
  | '\\' :: 'u' :: a :: b :: c :: d :: s => do
      let u ← unit? a b c d
      let (ps, rest) ← pieces? s
      some (.unit u :: ps, rest)
  | '\\' :: e :: s => do
      let c ← unescape? e
      let (ps, rest) ← pieces? s
      some (.char c :: ps, rest)
  | c :: s =>
      if c = '\\' ∨ c.toNat < 32 then none
      else do
        let (ps, rest) ← pieces? s
        some (.char c :: ps, rest)

/-- Whether a unit is the first half of a pair. -/
def isHigh (u : Nat) : Bool := 0xD800 ≤ u && u < 0xDC00

/-- Whether a unit is the second half of a pair. -/
def isLow (u : Nat) : Bool := 0xDC00 ≤ u && u < 0xE000

/-- The text that pieces spell: two units that form a pair give one character,
and a half without its partner gives none. -/
def spell? : List Piece → Option (List Char)
  | [] => some []
  | .char c :: ps => (spell? ps).map (c :: ·)
  | .unit u :: .unit v :: ps =>
      if isHigh u then
        if isLow v then
          (spell? ps).map (Char.ofNat (0x10000 + (u - 0xD800) * 1024 + (v - 0xDC00)) :: ·)
        else none
      else if isLow u then none
      else (spell? (.unit v :: ps)).map (Char.ofNat u :: ·)
  | .unit u :: ps =>
      if isHigh u || isLow u then none else (spell? ps).map (Char.ofNat u :: ·)

/-- A string after its opening quote. -/
def string? (s : List Char) : Option (Option String × List Char) := do
  let (ps, rest) ← pieces? s
  some ((spell? ps).map String.ofList, rest)

/-! ## Values -/

mutual

/-- A value, blanks in front allowed. -/
def value? : (fuel : Nat) → List Char → Option (Json × List Char)
  | 0, _ => none
  | fuel + 1, s =>
      match skipBlanks s with
      | 'n' :: s => (expect? "ull".toList s).map ((null, ·))
      | 't' :: s => (expect? "rue".toList s).map ((bool true, ·))
      | 'f' :: s => (expect? "alse".toList s).map ((bool false, ·))
      | '"' :: s => (string? s).map fun (t, rest) => (str t, rest)
      | '[' :: s =>
          match skipBlanks s with
          | ']' :: s => some (arr [], s)
          | s => do
              let (x, s) ← value? fuel s
              let (xs, s) ← items? fuel s
              some (arr (x :: xs), s)
      | '{' :: s =>
          match skipBlanks s with
          | '}' :: s => some (obj [], s)
          | s => do
              let (m, s) ← member? fuel s
              let (ms, s) ← members? fuel s
              some (obj (m :: ms), s)
      | s => (number? s).map fun (n, rest) => (num n, rest)

/-- The items after the first, up to the closing bracket. -/
def items? : (fuel : Nat) → List Char → Option (List Json × List Char)
  | 0, _ => none
  | fuel + 1, s =>
      match skipBlanks s with
      | ']' :: s => some ([], s)
      | ',' :: s => do
          let (x, s) ← value? fuel s
          let (xs, s) ← items? fuel s
          some (x :: xs, s)
      | _ => none

/-- A key, a colon and a value. -/
def member? : (fuel : Nat) → List Char → Option ((Option String × Json) × List Char)
  | 0, _ => none
  | fuel + 1, s =>
      match skipBlanks s with
      | '"' :: s => do
          let (key, s) ← string? s
          match skipBlanks s with
          | ':' :: s => do
              let (x, s) ← value? fuel s
              some ((key, x), s)
          | _ => none
      | _ => none

/-- The members after the first, up to the closing brace. -/
def members? : (fuel : Nat) → List Char → Option (List (Option String × Json) × List Char)
  | 0, _ => none
  | fuel + 1, s =>
      match skipBlanks s with
      | '}' :: s => some ([], s)
      | ',' :: s => do
          let (m, s) ← member? fuel s
          let (ms, s) ← members? fuel s
          some (m :: ms, s)
      | _ => none

end

/-- Reads a whole text as one value. -/
def parse? (text : String) : Option Json := do
  let s := text.toList
  let (j, rest) ← value? (s.length + 1) s
  if (skipBlanks rest).isEmpty then some j else none

end MarketSignals.Json
