import MarketSignals.Replay.Files

/-!
# The command line program

Reads files and standard input for `Replay.execute` and prints what it puts out:
outputs as JSON lines on standard output, everything else on standard error.
-/

namespace MarketSignals.Replay

/-- The number of an error that the system reports; some calls report it negated. -/
def systemNumber : IO.Error → Nat
  | .alreadyExists _ code _ | .otherError code _ | .resourceBusy code _
  | .resourceVanished code _ | .unsupportedOperation code _ | .hardwareFault code _
  | .unsatisfiedConstraints code _ | .illegalOperation code _ | .protocolError code _
  | .timeExpired code _ | .interrupted _ code _ | .noFileOrDirectory _ code _
  | .invalidArgument _ code _ | .permissionDenied _ code _ | .resourceExhausted _ code _
  | .inappropriateType _ code _ | .noSuchThing _ code _ => min code.toNat (0 - code).toNat
  | .unexpectedEof | .userError _ => 0

/-- Why the system cannot read a file, if it is a fault that has a name here. -/
def systemFault? (error : IO.Error) : Option FileFault :=
  FileFault.ofNumber? (systemNumber error)

/-- The reason that the system gives for a file that cannot be read. -/
def systemReason (error : IO.Error) : String :=
  match systemFault? error with
  | some fault => fault.message
  | none => toString error

/-- A file as a text. -/
def readText (path : String) : IO (Except String String) := do
  match ← (IO.FS.readBinFile path).toBaseIO with
  | .error error => return .error (systemReason error)
  | .ok bytes =>
      match String.fromUTF8? bytes with
      | some text => return .ok text
      | none => return .error "stream did not contain valid UTF-8"

/-- A file, or standard input, as lines.  A folder can be opened, but its first line
cannot be read. -/
def readLines : Option String → IO (Option (List Line))
  | some path => do
      match ← (IO.FS.readBinFile path).toBaseIO with
      | .error error =>
          return if systemFault? error = some .isFolder then some [none] else none
      | .ok bytes => return some (linesOf bytes)
  | none => do
      let bytes ← (← IO.getStdin).readBinToEnd
      return some (linesOf bytes)

/-- Prints an outcome. -/
def report (o : Outcome) : IO Unit := do
  if o.showsUsage then IO.eprint usage
  for w in o.warnings do IO.eprintln w.text
  for line in o.printed do IO.println line
  if let some summary := o.summary then IO.eprintln summary
  if let some fault := o.fault then IO.eprintln s!"Error: {fault.message}"

end MarketSignals.Replay

/-- Runs the command line. -/
def main (arguments : List String) : IO UInt32 := do
  let outcome ← MarketSignals.Replay.execute
    ⟨MarketSignals.Replay.readText, MarketSignals.Replay.readLines⟩ arguments
  MarketSignals.Replay.report outcome
  return outcome.status
