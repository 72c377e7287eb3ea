import MarketSignals.Alpha.Config
import MarketSignals.Estimator

/-!
# The estimators that come with the engine

One case per family, built from checked settings.  They never make requests, and
only a regime detector has a reference.
-/

namespace MarketSignals

/-- An estimator of one of the families. -/
inductive Alpha where
  | garch (estimator : Garch.Estimator)
  | klRegime (estimator : Regime.Estimator)
  | ofi (estimator : OrderFlow.Estimator)

/-- Checks settings and builds a fresh estimator. -/
def AlphaConfig.build : AlphaConfig → Except AlphaConfigFault Alpha
  | garch c => ((Garch.Estimator.build c).mapError .garch).map .garch
  | klRegime c => ((Regime.Estimator.build c).mapError .klRegime).map .klRegime
  | ofi c => ((OrderFlow.Estimator.build c).mapError .ofi).map .ofi

namespace Alpha

/-- The family of an estimator. -/
def kind : Alpha → AlphaKind
  | garch _ => .garch
  | klRegime _ => .klRegime
  | ofi _ => .ofi

/-- The fields that an estimator reads. -/
def requiredFields : Alpha → List EventField
  | garch e => e.returns.input.requiredFields
  | klRegime e => e.returns.input.requiredFields
  | ofi _ => [.bidPrice, .bidSize, .askPrice, .askSize]

/-- A result with the new estimator where there is one, and the old one where
the call was refused. -/
def settle {β ε : Type} (embed : ε → Alpha) (old : ε) :
    Except EngineError (β × ε) → Except Fault β × Alpha
  | .ok (x, new) => (.ok x, embed new)
  | .error error => (.error (.refused error), embed old)

/-- Folds one event in. -/
def update (a : Alpha) (event : MarketEvent) : Except Fault SignalReading × Alpha :=
  match a with
  | garch e => settle garch e (e.update event)
  | klRegime e => (e.update event).map id klRegime
  | ofi e => settle ofi e (e.update event)

/-- Back to the state before any event. -/
def reset : Alpha → Alpha
  | garch e => garch e.reset
  | klRegime e => klRegime e.reset
  | ofi e => ofi e.reset

/-- Takes the recent window for the reference. -/
def rebase (a : Alpha) : Except Fault Unit × Alpha :=
  match a with
  | klRegime e => settle klRegime e (e.rebase.map ((), ·))
  | a => (.error (Estimator.cannotRebase (.ok a.kind)), a)

/-- The bins of the reference, if there is one. -/
def referenceBinning : Alpha → Option Binning
  | klRegime e => some e.binning
  | _ => none

/-- Takes counts from elsewhere for the reference. -/
def installReference (a : Alpha) (counts : List Nat) : Except Fault Unit × Alpha :=
  match a with
  | klRegime e => settle klRegime e ((e.installReference counts).map ((), ·))
  | a => (.error (Estimator.cannotInstall (.ok a.kind)), a)

instance : Estimator Alpha where
  kind a := .ok a.kind
  requiredFields a := .ok a.requiredFields
  update a event := let (result, a) := a.update event; .done result a
  reset a := (.ok (), a.reset)
  rebase := rebase
  referenceBinning a := .ok a.referenceBinning
  installReference := installReference

end Alpha

/-- A type of estimators that holds the ones that come with the engine. -/
class AlphaHost (ε : Type) extends Estimator ε where
  /-- The engine's estimator as one of the type. -/
  ofAlpha : Alpha → ε

instance : AlphaHost Alpha where
  ofAlpha a := a

/-- The engine's estimators side by side with those of a host. -/
instance {η : Type} [Estimator η] : AlphaHost (Alpha ⊕ η) where
  kind := Sum.elim Estimator.kind Estimator.kind
  requiredFields := Sum.elim Estimator.requiredFields Estimator.requiredFields
  update s event :=
    match s with
    | .inl a => (Estimator.update a event).map .inl
    | .inr h => (Estimator.update h event).map .inr
  reset
    | .inl a => (Estimator.reset a).map id .inl
    | .inr h => (Estimator.reset h).map id .inr
  rebase
    | .inl a => (Estimator.rebase a).map id .inl
    | .inr h => (Estimator.rebase h).map id .inr
  referenceBinning := Sum.elim Estimator.referenceBinning Estimator.referenceBinning
  installReference s counts :=
    match s with
    | .inl a => (Estimator.installReference a counts).map id .inl
    | .inr h => (Estimator.installReference h counts).map id .inr
  ofAlpha := .inl

end MarketSignals
