import MarketSignals.Estimator

/-!
# Scripted estimators

An estimator whose conduct is written down in advance: the n-th update after a
reset performs the n-th action of its script.  A host uses it to see how an
engine deals with estimators that fail, break off, or interfere with others
while they run.
-/

namespace MarketSignals

/-- What a scripted estimator does during one update. -/
inductive ScriptedAction where
  /-- Give a reading. -/
  | succeed
  /-- Return an error. -/
  | fail (error : EngineError)
  /-- Break off. -/
  | breakOff (panic : Panic)
  /-- Ask to cancel the running batch, then give a reading. -/
  | cancelBatch
  /-- Ask for a registration to be removed; give a reading if it was, and return
  the error otherwise. -/
  | deregister (alphaId : AlphaId) (instrumentId : InstrumentId)
  deriving Repr, DecidableEq

/-- An estimator that follows a script. -/
structure Scripted where
  kind : AlphaKind
  requiredFields : List EventField
  /-- One action for each update; after the last one every update succeeds. -/
  script : List ScriptedAction
  /-- What it breaks off with when asked for its family. -/
  kindPanic : Option String := none
  /-- What it breaks off with when asked for its fields. -/
  fieldsPanic : Option String := none
  /-- How many resets break off before the first that succeeds. -/
  failingResets : Nat := 0
  /-- Updates since the last successful reset. -/
  updates : Nat := 0
  /-- Resets so far. -/
  resets : Nat := 0
  deriving Repr, DecidableEq

namespace Scripted

/-- Answers a question unless the script says to break off. -/
def unlessPanic {β : Type} (panic : Option String) (answer : β) : Except Panic β :=
  match panic with
  | some text => .error (.text text)
  | none => .ok answer

/-- The reading of a successful update counts the updates. -/
def reading (s : Scripted) : SignalReading := ⟨Float.ofNat s.updates, .ready, .ofi 0 0 0⟩

/-- The end of an update that succeeds. -/
def finish (s : Scripted) : Interaction Scripted := .done (.ok s.reading) s

/-- Performs an action; the update is already counted. -/
def perform (s : Scripted) : ScriptedAction → Interaction Scripted
  | .succeed => s.finish
  | .fail error => .done (.error (.refused error)) s
  | .breakOff panic => .done (.error (.panicked panic)) s
  | .cancelBatch => .cancelBatch s.finish
  | .deregister alphaId instrumentId =>
      .deregister alphaId instrumentId fun
        | .ok () => s.finish
        | .error error => .done (.error (.refused error)) s

/-- Counts an update and performs its action. -/
def update (s : Scripted) : Interaction Scripted :=
  perform { s with updates := s.updates + 1 } (s.script[s.updates]?.getD .succeed)

/-- Counts a reset; one that does not break off starts the script again. -/
def reset (s : Scripted) : Except Panic Unit × Scripted :=
  let s := { s with resets := s.resets + 1 }
  if s.resets ≤ s.failingResets then (.error (.text s!"reset {s.resets}"), s)
  else (.ok (), { s with updates := 0 })

instance : Estimator Scripted where
  kind s := unlessPanic s.kindPanic s.kind
  requiredFields s := unlessPanic s.fieldsPanic s.requiredFields
  update s _ := s.update
  reset := reset
  rebase s := (.error (Estimator.cannotRebase (unlessPanic s.kindPanic s.kind)), s)
  referenceBinning _ := .ok none
  installReference s _ := (.error (Estimator.cannotInstall (unlessPanic s.kindPanic s.kind)), s)

end Scripted

end MarketSignals
