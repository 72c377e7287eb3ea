import MarketSignals.Binning
import MarketSignals.Signal
import MarketSignals.Error

/-!
# The interface of estimators

The registry works with estimators of any type that implements `Estimator`.  A
call gives its result together with the state it leaves, also where it fails or
breaks off, since a caller may go on using an estimator that failed.

While it takes in an event an estimator may make requests: remove a registration
of the registry that called it, or raise the cancellation flag of the batch that
feeds it.  `Interaction` is the finite tree of these requests and of the answers
they may get.
-/

namespace MarketSignals

/-- An update in the course of which an estimator may make requests. -/
inductive Interaction (ε : Type) where
  /-- The update is over. -/
  | done (result : Except Fault SignalReading) (state : ε)
  /-- Look the pair up and remove its registration; go on with the outcome. -/
  | deregister (alphaId : AlphaId) (instrumentId : InstrumentId)
      (resume : Except EngineError Unit → Interaction ε)
  /-- Raise the cancellation flag of the running batch and go on. -/
  | cancelBatch (rest : Interaction ε)

/-- The same update of an estimator seen as one of another type. -/
def Interaction.map {ε δ : Type} (f : ε → δ) : Interaction ε → Interaction δ
  | done result state => done result (f state)
  | deregister alphaId instrumentId resume =>
      deregister alphaId instrumentId fun answer => (resume answer).map f
  | cancelBatch rest => cancelBatch (rest.map f)

/-- What the registry asks of an estimator. -/
class Estimator (ε : Type) where
  /-- The family of the estimator. -/
  kind : ε → Except Panic AlphaKind
  /-- The fields it reads from every event it accepts.  An estimator that reads
  a field of the trade is only given trade events. -/
  requiredFields : ε → Except Panic (List EventField)
  /-- Folds one event in. -/
  update : ε → MarketEvent → Interaction ε
  /-- Drops what was accumulated and keeps the settings. -/
  reset : ε → Except Panic Unit × ε
  /-- Takes the recent window for the reference. -/
  rebase : ε → Except Fault Unit × ε
  /-- The bins of the reference, if there is one. -/
  referenceBinning : ε → Except Panic (Option Binning)
  /-- Takes counts from elsewhere for the reference. -/
  installReference : ε → List Nat → Except Fault Unit × ε

namespace Estimator

/-- The error of an estimator of the given family. -/
def refusal (kind : Except Panic AlphaKind) (wording : AlphaKind → String) : Fault :=
  match kind with
  | .ok kind => .refused (.invalidInput (wording kind))
  | .error panic => .panicked panic

/-- An estimator without a reference has none to rebase. -/
def cannotRebase (kind : Except Panic AlphaKind) : Fault :=
  refusal kind fun kind => s!"{kind.name} estimator has no reference window to rebase"

/-- An estimator without a reference takes none. -/
def cannotInstall (kind : Except Panic AlphaKind) : Fault :=
  refusal kind fun kind => s!"{kind.name} estimator does not accept a reference histogram"

/-- An estimator without a reference has no bins for one. -/
def noReference (kind : Except Panic AlphaKind) : Fault :=
  refusal kind fun kind => s!"{kind.name} estimator has no reference histogram"

end Estimator

end MarketSignals
