import MarketSignals.Batch.Reference
import MarketSignals.Engine.Config

/-!
# The engine

What a host calls.  Every call is refused once the engine is shut down; a panic
that gets past the registry becomes an error.  A batch or a reference can also be
handed over as a job, which runs later on the registry as it is then and can be
cancelled.
-/

namespace MarketSignals

/-- An engine. -/
structure Engine (ε : Type) where
  registry : Registry ε
  batch : BatchConfig
  health : HealthConfig
  isShutDown : Bool

/-- A batch handed over to be run later. -/
structure BatchJob where
  batch : Batch
  chunkSize : Nat

/-- A reference handed over to be loaded later. -/
structure ReferenceJob where
  handle : Handle
  samples : List Float
  chunkSize : Nat

namespace Engine

variable {ε : Type}

/-- An engine without estimators. -/
def start (batch : BatchConfig) (health : HealthConfig) : Engine ε := ⟨.empty, batch, health, false⟩

/-- The error of every call on an engine that is shut down. -/
def shutDownError : HostError := .ofEngine .shutDown

/-- A call on the registry, refused once the engine is shut down. -/
def call {β : Type} (e : Engine ε) (f : Registry ε → Except HostError β × Registry ε) :
    Except HostError β × Engine ε :=
  if e.isShutDown then (.error shutDownError, e)
  else
    let (result, registry) := f e.registry
    (result, { e with registry })

/-- A call that only reads the registry. -/
def ask {β : Type} (e : Engine ε) (f : Registry ε → Except EngineError β) : Except HostError β :=
  if e.isShutDown then .error shutDownError else (f e.registry).mapError .ofEngine

/-- The outcome of a call on the registry as a host sees it. -/
def hosted {β : Type} : Except EngineError β × Registry ε → Except HostError β × Registry ε
  | (result, r) => (result.mapError .ofEngine, r)

/-- A registration in the named operation: the registry changes only if it
succeeds. -/
def registered (operation : String) (r : Registry ε) :
    Except Fault (Handle × Registry ε) → Except HostError Handle × Registry ε
  | .ok (h, r) => (.ok h, r)
  | .error fault => (.error (.ofFault operation fault), r)

/-! ## Registration -/

/-- Registers an estimator of the engine from its settings. -/
def register [AlphaHost ε] (e : Engine ε) (alphaId : AlphaId) (instrumentId : InstrumentId)
    (config : AlphaConfig) : Except HostError Handle × Engine ε :=
  e.call fun r => registered "register" r (r.register alphaId instrumentId config)

/-- Registers an estimator of the host. -/
def registerEstimator [Estimator ε] (e : Engine ε) (alphaId : AlphaId)
    (instrumentId : InstrumentId) (estimator : ε) : Except HostError Handle × Engine ε :=
  e.call fun r =>
    registered "register_estimator" r (r.registerEstimator alphaId instrumentId estimator)

/-- The error of a text that is not one of settings. -/
def malformedAlphaError : HostError := .invalidInput "alpha config: not an alpha configuration"

/-- Registers an estimator of the engine from the text of its settings.  The text
is read first, whether or not the engine is shut down. -/
def registerText [AlphaHost ε] (e : Engine ε) (alphaId : AlphaId) (instrumentId : InstrumentId)
    (text : String) : Except HostError Handle × Engine ε :=
  match Codec.read? AlphaConfig text with
  | none => (.error malformedAlphaError, e)
  | some config => e.register alphaId instrumentId config

/-- Registers estimators one after the other, up to the first that fails. -/
def registerAll [AlphaHost ε] (e : Engine ε) :
    List RegistrationConfig → Except HostError (Engine ε)
  | [] => .ok e
  | c :: rest =>
      match e.register ⟨c.alphaId⟩ ⟨c.instrumentId⟩ c.config with
      | (.ok _, e) => e.registerAll rest
      | (.error error, _) => .error error

/-- Checks settings and builds an engine with every estimator they name. -/
def ofConfig [AlphaHost ε] (c : EngineConfig) : Except HostError (Engine ε) :=
  match c.validate with
  | .error error => .error (.invalidInput error.message)
  | .ok () => (start c.batch c.health).registerAll c.registrations

/-- Removes an estimator. -/
def deregister (e : Engine ε) (h : Handle) : Except HostError Unit × Engine ε :=
  e.call fun r =>
    match r.deregister h with
    | .ok r => (.ok (), r)
    | .error error => (.error (.ofEngine error), r)

/-! ## Calls on estimators -/

/-- Resets an estimator. -/
def reset [Estimator ε] (e : Engine ε) (h : Handle) : Except HostError Unit × Engine ε :=
  e.call fun r => hosted (r.reset h)

/-- Takes the recent window of an estimator for its reference. -/
def rebase [Estimator ε] (e : Engine ε) (h : Handle) : Except HostError Unit × Engine ε :=
  e.call fun r => hosted (r.rebase h)

/-- Feeds an event to one estimator. -/
def update [Estimator ε] (e : Engine ε) (h : Handle) (event : MarketEvent) :
    Except HostError SignalOutput × Engine ε :=
  e.call fun r => hosted (r.update h event)

/-- Feeds an event to every estimator on its instrument. -/
def dispatch [Estimator ε] (e : Engine ε) (event : MarketEvent) :
    Except HostError DispatchReport × Engine ε :=
  e.call fun r =>
    let d := r.dispatch event
    (.ok d.report, d.registry)

/-- The last output of an estimator. -/
def latest (e : Engine ε) (h : Handle) : Except HostError (Option SignalOutput) :=
  e.ask (·.latestOf h)

/-- The handle of a pair of names. -/
def lookup (e : Engine ε) (alphaId : AlphaId) (instrumentId : InstrumentId) :
    Except HostError Handle :=
  e.ask (·.lookup alphaId instrumentId)

/-- The descriptions of the estimators on an instrument. -/
def estimators (e : Engine ε) (instrumentId : InstrumentId) : Except HostError (List SlotInfo) :=
  e.ask fun r => .ok (r.infosOn instrumentId)

/-! ## Batches and references -/

/-- Runs a batch, which cannot be cancelled. -/
def updateBatch [Estimator ε] (e : Engine ε) (b : Batch) :
    Except HostError BatchReport × Engine ε :=
  e.call fun r =>
    let (result, r) := r.runBatch b e.batch.chunkSize .never
    (result.mapError (·.toHostError), r)

/-- Loads a reference, which cannot be cancelled. -/
def loadReference [Estimator ε] (e : Engine ε) (h : Handle) (samples : List Float) :
    Except HostError Unit × Engine ε :=
  e.call (·.loadReference h samples e.batch.chunkSize .never)

/-- The error of a job for which there is nothing to run it. -/
def noRuntimeError : HostError :=
  .invalidInput "offloading needs a tokio runtime: none is running"

/-- Hands a batch over; `runtime` says whether there is anything to run it. -/
def submitBatch (e : Engine ε) (runtime : Bool) (b : Batch) : Except HostError BatchJob :=
  if e.isShutDown then .error shutDownError
  else if runtime then .ok ⟨b, e.batch.chunkSize⟩
  else .error noRuntimeError

/-- Hands a reference over.  A handle that cannot take one is refused at once. -/
def submitReference [Estimator ε] (e : Engine ε) (runtime : Bool) (h : Handle)
    (samples : List Float) : Except HostError ReferenceJob × Engine ε :=
  e.call fun r =>
    match r.referenceBinning h with
    | (.error error, r) => (.error (.ofEngine error), r)
    | (.ok _, r) =>
        if runtime then (.ok ⟨h, samples, e.batch.chunkSize⟩, r) else (.error noRuntimeError, r)

/-- Runs a batch that was handed over.  The engine may be shut down by then. -/
def runBatchJob [Estimator ε] (e : Engine ε) (job : BatchJob) (cancel : Cancellation) :
    Except HostError BatchReport × Engine ε :=
  let (result, registry) := e.registry.runBatch job.batch job.chunkSize cancel
  (result.mapError (·.toHostError), { e with registry })

/-- Loads a reference that was handed over. -/
def runReferenceJob [Estimator ε] (e : Engine ε) (job : ReferenceJob) (cancel : Cancellation) :
    Except HostError Unit × Engine ε :=
  let (result, registry) := e.registry.loadReference job.handle job.samples job.chunkSize cancel
  (result, { e with registry })

/-! ## Life -/

/-- Whether the engine takes calls. -/
def isHealthy (e : Engine ε) : Bool := !e.isShutDown

/-- Removes every estimator and refuses all further calls.  A second time changes
nothing. -/
def shutdown (e : Engine ε) : Engine ε :=
  if e.isShutDown then e else { e with registry := e.registry.clear, isShutDown := true }

end Engine

end MarketSignals
