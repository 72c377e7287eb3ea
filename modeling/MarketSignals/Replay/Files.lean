import MarketSignals.Replay.Run

/-!
# Files held in memory

A tree of folders that a replay can take its files from, in place of the ones of
the system.  A path is looked up step by step:

* an empty step and `.` stay where they are, `..` goes up, and the top folder is
  above itself;
* a file has nothing below it, not even itself, so `events.jsonl/` leads nowhere;
* a path that begins with `/` begins at the top.

## Main definitions

* `Place.find` looks a path up and says why where it fails.
* `Place.surroundings` is what a replay sees of a tree.
-/

namespace MarketSignals.Replay

/-- A file with its text, or a folder with what it holds under each name. -/
inductive FileTree where
  | file (text : String)
  | folder (entries : List (String × FileTree))

/-- Why a file cannot be read. -/
inductive FileFault where
  | missing
  | denied
  /-- A step goes on from something that is not a folder. -/
  | notFolder
  /-- A folder is read as if it were a file. -/
  | isFolder
  | nameTooLong
  deriving Repr, DecidableEq

namespace FileFault

/-- The number by which a system knows a fault. -/
def number : FileFault → Nat
  | missing => 2
  | denied => 13
  | notFolder => 20
  | isFolder => 21
  | nameTooLong => 36

/-- The words that a system has for a fault. -/
def words : FileFault → String
  | missing => "No such file or directory"
  | denied => "Permission denied"
  | notFolder => "Not a directory"
  | isFolder => "Is a directory"
  | nameTooLong => "File name too long"

/-- The wording of a fault, with its number. -/
def message (f : FileFault) : String := s!"{f.words} (os error {f.number})"

/-- The fault that a number stands for. -/
def ofNumber? (n : Nat) : Option FileFault :=
  [missing, denied, notFolder, isFolder, nameTooLong].find? (·.number == n)

/-- A fault is known by its number. -/
@[simp] theorem ofNumber?_number (f : FileFault) : ofNumber? f.number = some f := by
  cases f <;> rfl

end FileFault

namespace FileTree

/-- The text of a file. -/
def text : FileTree → Except FileFault String
  | file text => .ok text
  | folder _ => .error .isFolder

/-- The lines that reading yields.  A folder can be opened like a file, but its
first line cannot be read. -/
def lines : FileTree → List Line
  | file text => linesOf text.toUTF8
  | folder _ => [none]

/-- Bytes that the name of a file may have. -/
def nameLimit : Nat := 255

/-- Follows the steps of a path from `here`, whose surrounding folders are `above`,
the nearest one first. -/
def walk (above : List FileTree) (here : FileTree) : List String → Except FileFault FileTree
  | [] => .ok here
  | name :: rest =>
      match here with
      | file _ => .error .notFolder
      | folder entries =>
          if name = "" ∨ name = "." then walk above here rest
          else if name = ".." then
            match above with
            | [] => walk [] here rest
            | up :: above => walk above up rest
          else if nameLimit < name.utf8ByteSize then .error .nameTooLong
          else
            match entries.lookup name with
            | none => .error .missing
            | some next => walk (here :: above) next rest

end FileTree

/-- A folder in a tree, with the folders around it, the nearest one first. -/
structure Place where
  here : FileTree
  above : List FileTree := []

namespace Place

/-- The folder that all others are in. -/
def top (p : Place) : FileTree := p.above.getLast?.getD p.here

/-- Bytes that a path may have. -/
def pathLimit : Nat := 4095

/-- What a path leads to.  The empty path leads nowhere. -/
def find (p : Place) (path : String) : Except FileFault FileTree :=
  if path.isEmpty then .error .missing
  else if pathLimit < path.utf8ByteSize then .error .nameTooLong
  else if path.startsWith "/" then FileTree.walk [] p.top (path.splitOn "/")
  else FileTree.walk p.above p.here (path.splitOn "/")

/-- What a replay that is started in a folder sees: the files of the tree, and
`input` as standard input. -/
def surroundings (p : Place) (input : String) : Surroundings Id where
  text path := (p.find path >>= FileTree.text).mapError FileFault.message
  lines
    | none => some (linesOf input.toUTF8)
    | some path => (p.find path).toOption.map FileTree.lines

end Place

end MarketSignals.Replay
