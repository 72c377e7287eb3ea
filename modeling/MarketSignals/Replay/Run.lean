import MarketSignals.Engine.Basic
import MarketSignals.Replay.Command
import MarketSignals.Replay.Lines

/-!
# Replaying a recording

Every event of a recording is dispatched to an engine that is set up from a file.
Outputs are kept in event order, failures of estimators become warnings, and the
first line that is not an event ends the replay with what it has put out so far.

Files are read through `Surroundings`, so the same definition serves the command
line and statements about it.
-/

namespace MarketSignals.Replay

/-- Why a replay ends before the end of the recording. -/
inductive Fault where
  | usage (error : UsageError)
  | config (error : ConfigError)
  | engine (error : HostError)
  /-- The recording cannot be opened. -/
  | noRecording (path : String)
  | unreadableLine (number : Nat)
  | malformedLine (number : Nat)

/-- The wording of a replay that has ended early. -/
def Fault.message : Fault → String
  | usage error => error.message
  | config error => error.message
  | engine error => error.text
  | noRecording path => s!"opening events file {path}"
  | unreadableLine number => s!"reading line {number}"
  | malformedLine number => s!"line {number}: not a market event"

/-- An estimator that failed on an event. -/
structure Warning where
  line : Nat
  alphaId : AlphaId
  instrumentId : InstrumentId
  error : EngineError

/-- The wording of a warning. -/
def Warning.text (w : Warning) : String :=
  s!"line {w.line}: {w.alphaId.name} on {w.instrumentId.name} failed: {w.error.message}"

/-! ## Events -/

/-- What has been replayed so far. -/
structure Transcript where
  engine : Engine Alpha
  outputs : Array SignalOutput := #[]
  warnings : Array Warning := #[]
  /-- How many events were dispatched. -/
  events : Nat := 0

namespace Transcript

/-- The closing words of a replay. -/
def summary (t : Transcript) : String :=
  let outputs := t.outputs.size
  let failures := t.warnings.size
  s!"replayed {t.events} events: {outputs} outputs written, {failures} estimator failures"

/-- Notes the report of an event. -/
def note (t : Transcript) (readyOnly : Bool) (number : Nat) (event : MarketEvent)
    (report : DispatchReport) : Transcript :=
  let kept := report.outputs.filter fun o => !readyOnly || o.isReady
  let failed : List Warning :=
    report.failures.map fun f => ⟨number, f.alphaId, event.instrumentId, f.error⟩
  { t with outputs := t.outputs ++ kept, warnings := t.warnings ++ failed }

/-- Replays one line.  Blank lines are passed over. -/
def step (t : Transcript) (readyOnly : Bool) (number : Nat) : Line → Except Fault Transcript
  | none => .error (.unreadableLine number)
  | some line =>
      if isBlankLine line then .ok t
      else
        match Codec.read? MarketEvent line with
        | none => .error (.malformedLine number)
        | some event =>
            match t.engine.dispatch event with
            | (.error error, _) => .error (.engine error)
            | (.ok report, engine) =>
                .ok ({ t with engine, events := t.events + 1 }.note readyOnly number event report)

/-- Replays the lines from `number` on, up to the first that fails. -/
def run (readyOnly : Bool) : (number : Nat) → List Line → Transcript → Transcript × Option Fault
  | _, [], t => (t, none)
  | number, line :: rest, t =>
      match t.step readyOnly number line with
      | .error fault => (t, some fault)
      | .ok t => run readyOnly (number + 1) rest t

end Transcript

/-! ## The whole program -/

/-- What a replay takes from its surroundings. -/
structure Surroundings (m : Type → Type) where
  /-- The text of a file, or the reason why there is none. -/
  text : String → m (Except String String)
  /-- The lines of a file, or of standard input where no path is given; none if
  there is nothing to open. -/
  lines : Option String → m (Option (List Line))

/-- The outcome of a command line. -/
structure Outcome where
  showsUsage : Bool := false
  outputs : Array SignalOutput := #[]
  warnings : Array Warning := #[]
  /-- The closing words, if the recording was replayed to its end. -/
  summary : Option String := none
  fault : Option Fault := none

namespace Outcome

/-- The outcome of a replay that ends before its first event. -/
def failed (fault : Fault) : Outcome := { fault := some fault }

/-- The outcome of a recording. -/
def ofTranscript : Transcript × Option Fault → Outcome
  | (t, none) => { outputs := t.outputs, warnings := t.warnings, summary := some t.summary }
  | (t, some fault) => { outputs := t.outputs, warnings := t.warnings, fault := some fault }

/-- What goes to standard output, one output on each line. -/
def printed (o : Outcome) : List String := o.outputs.toList.map Codec.write

/-- The exit status: zero for success. -/
def status (o : Outcome) : UInt32 := if o.fault.isSome then 1 else 0

end Outcome

/-- Sets an engine up from the content of its settings file. -/
def prepare (path : String) (content : Except String String) : Except Fault (Engine Alpha) := do
  let config ← (EngineConfig.ofFile path content).mapError .config
  (Engine.ofConfig config).mapError .engine

/-- Replays a recording as asked.  The settings are read before the recording is
opened. -/
def replay {m : Type → Type} [Monad m] (s : Surroundings m) (o : Options) : m Outcome := do
  match prepare o.config (← s.text o.config) with
  | .error fault => return .failed fault
  | .ok engine =>
      match ← s.lines o.events with
      | none => return .failed (.noRecording (o.events.getD "-"))
      | some lines => return .ofTranscript (Transcript.run o.readyOnly 1 lines { engine })

/-- Does what a command line asks for. -/
def execute {m : Type → Type} [Monad m] (s : Surroundings m) (arguments : List String) :
    m Outcome :=
  match Command.ofArguments arguments with
  | .error error => return { Outcome.failed (.usage error) with showsUsage := error.showsUsage }
  | .ok .help => return { showsUsage := true }
  | .ok (.replay options) => replay s options

end MarketSignals.Replay
