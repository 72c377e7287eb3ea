import MarketSignals.Json.Value

/-!
# Writing JSON

The compact text of a value: no blanks, members in order.  In strings only the
quote, the backslash and the control characters are escaped; everything else
stands for itself.
-/

namespace MarketSignals.Json

/-- A hexadecimal digit, lower case. -/
def hexDigit (n : Nat) : Char := (Nat.toDigits 16 n).headD '0'

/-- The characters that stand for `c` inside a string. -/
def escape (c : Char) : List Char :=
  if c = '"' then ['\\', '"']
  else if c = '\\' then ['\\', '\\']
  else if c = '\x08' then ['\\', 'b']
  else if c = '\x0c' then ['\\', 'f']
  else if c = '\n' then ['\\', 'n']
  else if c = '\r' then ['\\', 'r']
  else if c = '\t' then ['\\', 't']
  else if c.toNat < 32 then
    ['\\', 'u', '0', '0', hexDigit (c.toNat / 16), hexDigit (c.toNat % 16)]
  else [c]

/-- A quoted string.  A string without a text is written as the replacement
character. -/
def quote (s : Option String) : List Char :=
  '"' :: (s.getD "\uFFFD").toList.flatMap escape ++ ['"']

mutual

/-- The characters of a value. -/
def chars : Json → List Char
  | null => "null".toList
  | bool true => "true".toList
  | bool false => "false".toList
  | num n => n.chars true
  | str s => quote s
  | arr [] => ['[', ']']
  | arr (x :: rest) => '[' :: chars x ++ itemsChars rest ++ [']']
  | obj [] => ['{', '}']
  | obj ((k, x) :: rest) => '{' :: quote k ++ ':' :: chars x ++ membersChars rest ++ ['}']

/-- The characters of the items after the first, each behind a comma. -/
def itemsChars : List Json → List Char
  | [] => []
  | x :: rest => ',' :: chars x ++ itemsChars rest

/-- The characters of the members after the first, each behind a comma. -/
def membersChars : List (Option String × Json) → List Char
  | [] => []
  | (k, x) :: rest => ',' :: quote k ++ ':' :: chars x ++ membersChars rest

end

/-- The compact text of a value. -/
def text (j : Json) : String := String.ofList j.chars

end MarketSignals.Json
