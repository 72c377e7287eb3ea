import MarketSignals.Alpha.Estimator
import MarketSignals.Registry.Arena

/-!
# The registry

Every estimator of an engine, with the last output of each.  Calls name an
estimator by its handle.  A call on an estimator goes through its slot, so a
panic stays with the estimator that caused it; registering is the one call that
lets a panic through, since there is no slot yet.

An estimator may ask for a registration to be removed while it takes in an event
(`converse`).  The slot that runs keeps running, but what it leaves is only kept
if it is still registered afterwards.
-/

namespace MarketSignals

/-- What is known of a registration. -/
structure SlotInfo where
  handle : Handle
  alphaId : AlphaId
  instrumentId : InstrumentId
  kind : AlphaKind
  requiredFields : List EventField

/-- The description of a slot. -/
def Slot.info {ε : Type} (h : Handle) (s : Slot ε) : SlotInfo :=
  ⟨h, s.alphaId, s.instrumentId, s.kind, s.requiredFields⟩

/-- Estimators and their last outputs. -/
structure Registry (ε : Type) where
  arena : Arena ε
  latest : Std.ExtHashMap Handle SignalOutput

namespace Registry

variable {ε : Type}

/-- No estimators. -/
def empty : Registry ε := ⟨.empty, ∅⟩

/-- The number of estimators. -/
def size (r : Registry ε) : Nat := r.arena.size

/-! ## Errors -/

/-- The error of a handle that reaches nothing. -/
def staleError (h : Handle) : EngineError :=
  .notFound s!"estimator handle {h.text} is not registered"

/-- The error of a pair of names under which nothing is registered. -/
def unknownError (alphaId : AlphaId) (instrumentId : InstrumentId) : EngineError :=
  .notFound s!"no estimator {alphaId.name} registered on {instrumentId.name}"

/-- The error of an event for another instrument. -/
def wrongInstrumentError (event slot : InstrumentId) : EngineError :=
  .invalidInput s!"event for {event.name} sent to estimator registered on {slot.name}"

/-- The error of a quote event for an estimator that reads trades. -/
def noTradeError (s : Slot ε) : EngineError :=
  .invalidInput s!"{s.alphaId.name} ({s.kind.name}) needs a trade print, event carries none"

/-! ## Lookup -/

/-- The slot that a handle reaches. -/
def slot (r : Registry ε) (h : Handle) : Except EngineError (Slot ε) :=
  match r.arena.get? h with
  | some s => .ok s
  | none => .error (staleError h)

/-- The handle of a pair of names. -/
def lookup (r : Registry ε) (alphaId : AlphaId) (instrumentId : InstrumentId) :
    Except EngineError Handle :=
  match r.arena.byKey[(⟨alphaId, instrumentId⟩ : SlotKey)]? with
  | some h => .ok h
  | none => .error (unknownError alphaId instrumentId)

/-- The last output of an estimator, if it has had one since it was registered or
reset. -/
def latestOf (r : Registry ε) (h : Handle) : Except EngineError (Option SignalOutput) :=
  (r.slot h).map fun _ => r.latest[h]?

/-- The description of an estimator. -/
def describe (r : Registry ε) (h : Handle) : Except EngineError SlotInfo :=
  (r.slot h).map (·.info h)

/-- The handles on an instrument, in order of registration. -/
def handlesOn (r : Registry ε) (instrumentId : InstrumentId) : List Handle :=
  r.arena.handlesOn instrumentId

/-- The slots on an instrument, in order of registration. -/
def slotsOn (r : Registry ε) (instrumentId : InstrumentId) : List (Handle × Slot ε) :=
  r.arena.slotsOn instrumentId

/-- The descriptions of the estimators on an instrument, in order of
registration. -/
def infosOn (r : Registry ε) (instrumentId : InstrumentId) : List SlotInfo :=
  (r.slotsOn instrumentId).map fun (h, s) => s.info h

/-! ## Registration -/

/-- Registers an estimator under a pair of names that is still free.  The
estimator is asked for its family before the names are looked up. -/
def registerEstimator [Estimator ε] (r : Registry ε) (alphaId : AlphaId)
    (instrumentId : InstrumentId) (estimator : ε) : Except Fault (Handle × Registry ε) := do
  let _ ← (Estimator.kind estimator).mapError .panicked
  if r.arena.byKey.contains ⟨alphaId, instrumentId⟩ then
    .error (.refused (.duplicateRegistration alphaId.name instrumentId.name))
  let slot ← (Slot.of alphaId instrumentId estimator).mapError .panicked
  let (h, arena) ← (r.arena.insert slot).mapError .refused
  return (h, { r with arena })

/-- Builds an estimator from settings and registers it. -/
def register [AlphaHost ε] (r : Registry ε) (alphaId : AlphaId) (instrumentId : InstrumentId)
    (config : AlphaConfig) : Except Fault (Handle × Registry ε) := do
  let alpha ← config.build.mapError fun f => .refused f.toEngineError
  r.registerEstimator alphaId instrumentId (AlphaHost.ofAlpha alpha)

/-- Removes an estimator, whose handle becomes stale. -/
def deregister (r : Registry ε) (h : Handle) : Except EngineError (Registry ε) :=
  match r.arena.remove? h with
  | some (_, arena) => .ok ⟨arena, r.latest.erase h⟩
  | none => .error (staleError h)

/-- Removes the estimators with the given handles one after the other, and
forgets all outputs. -/
def clearInOrder (r : Registry ε) (order : List Handle) : Registry ε :=
  let arena := order.foldl (fun a h => ((a.remove? h).map (·.2)).getD a) r.arena
  ⟨arena, ∅⟩

/-- Removes all estimators. -/
def clear (r : Registry ε) : Registry ε := r.clearInOrder r.arena.liveHandles

/-! ## Calls on one estimator -/

/-- Keeps a slot that a call has left, if its estimator is still registered. -/
def store (r : Registry ε) (h : Handle) (s : Slot ε) : Registry ε :=
  { r with arena := r.arena.store h s }

/-- Keeps the output of an estimator, if it is still registered. -/
def publish (r : Registry ε) (h : Handle) (o : SignalOutput) : Registry ε :=
  { r with latest := if r.arena.isLive h then r.latest.insert h o else r.latest.erase h }

/-- Calls an estimator through its slot. -/
def callSlot {β : Type} (r : Registry ε) (h : Handle) (call : ε → Except Fault β × ε) :
    Except EngineError β × Registry ε :=
  match r.slot h with
  | .error error => (.error error, r)
  | .ok s =>
      let (result, s) := s.guarded call
      (result, r.store h s)

/-- Resets an estimator; its last output is forgotten once that succeeds. -/
def reset [Estimator ε] (r : Registry ε) (h : Handle) : Except EngineError Unit × Registry ε :=
  match r.slot h with
  | .error error => (.error error, r)
  | .ok s =>
      match s.reset with
      | (.ok (), s) => (.ok (), { r.store h s with latest := r.latest.erase h })
      | (.error error, s) => (.error error, r.store h s)

/-- Takes the recent window of an estimator for its reference. -/
def rebase [Estimator ε] (r : Registry ε) (h : Handle) : Except EngineError Unit × Registry ε :=
  r.callSlot h Estimator.rebase

/-- The bins of an estimator's reference. -/
def referenceBinning [Estimator ε] (r : Registry ε) (h : Handle) :
    Except EngineError Binning × Registry ε :=
  r.callSlot h fun estimator =>
    match Estimator.referenceBinning estimator with
    | .ok (some b) => (.ok b, estimator)
    | .ok none => (.error (Estimator.noReference (Estimator.kind estimator)), estimator)
    | .error panic => (.error (.panicked panic), estimator)

/-- Takes counts for the reference of an estimator. -/
def installReference [Estimator ε] (r : Registry ε) (h : Handle) (counts : List Nat) :
    Except EngineError Unit × Registry ε :=
  r.callSlot h (Estimator.installReference · counts)

/-! ## Updates -/

/-- The end of a conversation with an estimator. -/
structure Turn (ε : Type) where
  registry : Registry ε
  /-- Whether the estimator asked to cancel the running batch. -/
  cancelled : Bool
  result : Except Fault SignalReading
  state : ε

/-- Answers the requests of an estimator until its update is over. -/
def converse (r : Registry ε) : Interaction ε → Turn ε
  | .done result state => ⟨r, false, result, state⟩
  | .deregister alphaId instrumentId resume =>
      match r.lookup alphaId instrumentId >>= r.deregister with
      | .ok registry => converse registry (resume (.ok ()))
      | .error error => converse r (resume (.error error))
  | .cancelBatch rest => { converse r rest with cancelled := true }

/-- The outcome of feeding one event to one estimator. -/
structure Feed (ε : Type) where
  result : Except EngineError SignalOutput
  cancelled : Bool
  registry : Registry ε

/-- Feeds an event to the estimator of a slot. -/
def run [Estimator ε] (r : Registry ε) (h : Handle) (s : Slot ε) (event : MarketEvent) : Feed ε :=
  if s.disabled then ⟨.error s.disabledError, false, r⟩
  else
    let turn := r.converse (Estimator.update s.estimator event)
    let (result, s) := s.absorb (turn.result, turn.state)
    let registry := turn.registry.store h s
    match result with
    | .error error => ⟨.error error, turn.cancelled, registry⟩
    | .ok reading =>
        let output := SignalOutput.ofReading s.alphaId s.instrumentId event.timestamp reading
        ⟨.ok output, turn.cancelled, registry.publish h output⟩

/-- Feeds an event to one estimator, which must be on its instrument and take
events of its kind. -/
def update [Estimator ε] (r : Registry ε) (h : Handle) (event : MarketEvent) :
    Except EngineError SignalOutput × Registry ε :=
  match r.slot h with
  | .error error => (.error error, r)
  | .ok s =>
      if event.instrumentId ≠ s.instrumentId then
        (.error (wrongInstrumentError event.instrumentId s.instrumentId), r)
      else if !s.accepts event then (.error (noTradeError s), r)
      else
        let fed := r.run h s event
        (fed.result, fed.registry)

end Registry

end MarketSignals
