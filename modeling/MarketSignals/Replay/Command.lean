/-!
# The command line of a replay

A replay is asked for with the path of the engine's settings and, if the events
do not come from standard input, the path of the events.  Arguments are read
from the left; the first one that is not understood is reported, and a request
for help ends the reading.
-/

namespace MarketSignals.Replay

/-- What a replay is asked to do. -/
structure Options where
  /-- The path of the engine's settings. -/
  config : String
  /-- The path of the events; standard input if there is none. -/
  events : Option String := none
  /-- Whether outputs of estimators that are warming up are left out. -/
  readyOnly : Bool := false
  deriving Repr, DecidableEq

/-- Why a command line is not understood. -/
inductive UsageError where
  | noPath (option : String)
  | unknown (argument : String)
  | noConfig
  deriving Repr, DecidableEq

namespace UsageError

/-- The wording of a command line that is not understood. -/
def message : UsageError → String
  | noPath option => s!"{option} requires a path"
  | unknown argument => s!"unknown argument: {argument}"
  | noConfig => "--config is required"

/-- Whether the usage is shown along with the error. -/
def showsUsage : UsageError → Bool
  | noPath _ => false
  | unknown _ | noConfig => true

end UsageError

/-- What a command line asks for. -/
inductive Command where
  | help
  | replay (options : Options)
  deriving Repr, DecidableEq

/-- Reads arguments, given what the ones before them have set. -/
def readArguments (config events : Option String) (readyOnly : Bool) :
    List String → Except UsageError Command
  | [] =>
      match config with
      | some config => .ok (.replay { config, events, readyOnly })
      | none => .error .noConfig
  | "--help" :: _ | "-h" :: _ => .ok .help
  | "--config" :: path :: rest | "-c" :: path :: rest =>
      readArguments (some path) events readyOnly rest
  | ["--config"] | ["-c"] => .error (.noPath "--config")
  | "--events" :: path :: rest | "-e" :: path :: rest =>
      readArguments config (some path) readyOnly rest
  | ["--events"] | ["-e"] => .error (.noPath "--events")
  | "--ready-only" :: rest => readArguments config events true rest
  | argument :: _ => .error (.unknown argument)

/-- Reads a command line.  A path that is given twice counts the second time. -/
def Command.ofArguments (arguments : List String) : Except UsageError Command :=
  readArguments none none false arguments

/-- How the command line is used. -/
def usage : String :=
  "Replay - feed recorded market events through the signal engine

USAGE:
    replay --config <PATH> [--events <PATH>] [--ready-only]

OPTIONS:
    --config <PATH>     Engine configuration (JSON)
    --events <PATH>     Market events, one JSON object per line (default: stdin)
    --ready-only        Only print outputs whose estimator is past warm-up
    --help              Print this help message

Outputs are written to stdout as JSON lines, in event order.
"

end MarketSignals.Replay
