import MarketSignals.Registry.Basic

/-!
# Dispatch

One event goes to every estimator on its instrument, in the order of
registration.  Those that fail are recorded, those that do not take events of
its kind are counted, and the others still see it.  The slots are those
registered when the dispatch begins.
-/

namespace MarketSignals

/-- An estimator that failed on an event. -/
structure DispatchFailure where
  handle : Handle
  alphaId : AlphaId
  error : EngineError

/-- The outcome of a dispatch. -/
structure DispatchReport where
  /-- Outputs in order of registration. -/
  outputs : List SignalOutput := []
  failures : List DispatchFailure := []
  /-- How many estimators do not take events of this kind. -/
  skipped : Nat := 0

namespace DispatchReport

/-- Whether no estimator failed. -/
def isClean (d : DispatchReport) : Bool := d.failures.isEmpty

/-- The report with the result of an estimator in front. -/
def record (d : DispatchReport) (h : Handle) (alphaId : AlphaId) :
    Except EngineError SignalOutput → DispatchReport
  | .ok output => { d with outputs := output :: d.outputs }
  | .error error => { d with failures := ⟨h, alphaId, error⟩ :: d.failures }

end DispatchReport

/-- A dispatch that is over. -/
structure Dispatched (ε : Type) where
  report : DispatchReport
  /-- Whether an estimator asked to cancel the running batch. -/
  cancelled : Bool
  registry : Registry ε

namespace Registry

variable {ε : Type} [Estimator ε]

/-- Feeds an event to the given slots one after the other. -/
def feedAll (event : MarketEvent) : List (Handle × Slot ε) → Registry ε → Dispatched ε
  | [], r => ⟨{}, false, r⟩
  | (h, s) :: rest, r =>
      if s.accepts event then
        let fed := r.run h s event
        let others := feedAll event rest fed.registry
        ⟨others.report.record h s.alphaId fed.result, fed.cancelled || others.cancelled,
          others.registry⟩
      else
        let others := feedAll event rest r
        { others with report := { others.report with skipped := others.report.skipped + 1 } }

/-- Feeds an event to every estimator on its instrument. -/
def dispatch (r : Registry ε) (event : MarketEvent) : Dispatched ε :=
  feedAll event (r.slotsOn event.instrumentId) r

end Registry

end MarketSignals
