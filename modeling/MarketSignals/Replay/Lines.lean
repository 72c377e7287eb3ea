/-!
# Lines of a recording

A recording holds one event on each line.  Lines end with a line feed, which the
last one may lack.  A carriage return in front of it stays with the line, where
it counts as white space.
-/

namespace MarketSignals.Replay

/-- A line as it was read; none if its bytes are not a text. -/
abbrev Line := Option String

/-- Cuts bytes after every line feed.  The cuts are made from the end, so a byte
joins the line that begins behind it. -/
def cutLines (bytes : List UInt8) : List (List UInt8) :=
  bytes.foldr (fun b lines =>
    if b = 10 then [] :: lines
    else
      match lines with
      | [] => [[b]]
      | line :: lines => (b :: line) :: lines) []

/-- The lines of a recording. -/
def linesOf (bytes : ByteArray) : List Line :=
  (cutLines bytes.toList).map fun line => String.fromUTF8? line.toByteArray

/-- Whether a character has the Unicode property of white space. -/
def isWhiteSpace (c : Char) : Bool :=
  let n := c.toNat
  (0x09 ≤ n && n ≤ 0x0D) || n == 0x20 || n == 0x85 || n == 0xA0 || n == 0x1680 ||
    (0x2000 ≤ n && n ≤ 0x200A) || n == 0x2028 || n == 0x2029 || n == 0x202F || n == 0x205F ||
    n == 0x3000

/-- Whether a line holds nothing but white space. -/
def isBlankLine (line : String) : Bool := line.toList.all isWhiteSpace

end MarketSignals.Replay
