import MarketSignals.Estimator

/-!
# Slots

One registered estimator with what the registry knows about it.  A slot stands
between its estimator and the rest of the engine: a call that breaks off becomes
an error and disables the slot, and a disabled slot no longer calls its
estimator until a reset succeeds.
-/

namespace MarketSignals

/-- A registered estimator. -/
structure Slot (ε : Type) where
  alphaId : AlphaId
  instrumentId : InstrumentId
  kind : AlphaKind
  requiredFields : List EventField
  estimator : ε
  /-- Set when the estimator broke off; its state is no longer trusted. -/
  disabled : Bool

namespace Slot

variable {ε : Type}

/-- A slot for a new estimator, which is asked for its fields and its family. -/
def of [Estimator ε] (alphaId : AlphaId) (instrumentId : InstrumentId) (estimator : ε) :
    Except Panic (Slot ε) := do
  let requiredFields ← Estimator.requiredFields estimator
  let kind ← Estimator.kind estimator
  return { alphaId, instrumentId, kind, requiredFields, estimator, disabled := false }

/-- Whether only trade events have every field the estimator reads. -/
def needsTrade (s : Slot ε) : Bool := s.requiredFields.any EventField.ofTrade

/-- Whether the estimator is given an event. -/
def accepts (s : Slot ε) (event : MarketEvent) : Bool := !s.needsTrade || event.isTrade

/-- The error of every call on a disabled slot. -/
def disabledError (s : Slot ε) : EngineError :=
  .invariant s!"estimator {s.alphaId.name} on {s.instrumentId.name} is disabled until reset"

/-- The error that stands for a panic. -/
def panicError (panic : Panic) : EngineError := .invariant s!"estimator panicked: {panic.message}"

/-- The error that stands for a panic during a reset. -/
def resetPanicError (panic : Panic) : EngineError :=
  .invariant s!"estimator panicked during reset: {panic.message}"

/-- The slot after a call on its estimator, and the result as others see it. -/
def absorb {β : Type} (s : Slot ε) : Except Fault β × ε → Except EngineError β × Slot ε
  | (.ok x, estimator) => (.ok x, { s with estimator })
  | (.error (.refused error), estimator) => (.error error, { s with estimator })
  | (.error (.panicked panic), estimator) =>
      (.error (panicError panic), { s with estimator, disabled := true })

/-- Calls the estimator unless the slot is disabled. -/
def guarded {β : Type} (s : Slot ε) (call : ε → Except Fault β × ε) :
    Except EngineError β × Slot ε :=
  if s.disabled then (.error s.disabledError, s) else s.absorb (call s.estimator)

/-- Resets the estimator, disabled or not.  Success enables the slot and a panic
disables it. -/
def reset [Estimator ε] (s : Slot ε) : Except EngineError Unit × Slot ε :=
  match Estimator.reset s.estimator with
  | (.ok (), estimator) => (.ok (), { s with estimator, disabled := false })
  | (.error panic, estimator) =>
      (.error (resetPanicError panic), { s with estimator, disabled := true })

end Slot

end MarketSignals
