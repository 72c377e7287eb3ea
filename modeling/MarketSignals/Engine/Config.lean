import MarketSignals.Alpha.Estimator

/-!
# Settings of an engine

Estimators to register at the start, and settings of batches and of the health
probe.  Everything but the estimators' own settings has a default.
-/

namespace MarketSignals

/-- An estimator to register. -/
structure RegistrationConfig where
  alphaId : String
  instrumentId : String
  config : AlphaConfig

/-- Settings of batches. -/
structure BatchConfig where
  /-- Rows between two looks at the cancellation flag. -/
  chunkSize : Nat := 1024
  deriving Repr, DecidableEq

/-- Settings of the health probe. -/
structure HealthConfig where
  probeTimeoutMs : Nat := 50
  deriving Repr, DecidableEq

/-- The settings of an engine. -/
structure EngineConfig where
  /-- Estimators in the order they are registered. -/
  registrations : List RegistrationConfig := []
  batch : BatchConfig := {}
  health : HealthConfig := {}

/-- Why settings are not accepted. -/
inductive ConfigError where
  /-- The file could not be read. -/
  | unreadable (path reason : String)
  /-- The text is not one of settings. -/
  | malformed
  | chunkSize
  | emptyName
  | alpha (alphaId instrumentId : String) (fault : AlphaConfigFault)

/-- The wording of settings that are not accepted. -/
def ConfigError.message : ConfigError → String
  | unreadable path reason => s!"Failed to read config file '{path}': {reason}"
  | malformed => "Failed to parse config: not an engine configuration"
  | chunkSize => "Invalid config: batch.chunk_size must be >= 1"
  | emptyName => "Invalid config: registration needs non-empty alpha_id and instrument_id"
  | alpha alphaId instrumentId fault =>
      let reason := fault.toEngineError.message
      s!"Invalid alpha config for {alphaId} on {instrumentId}: {reason}"

/-! ## JSON -/

instance : Codec RegistrationConfig where
  encode c := Json.object
    [("alpha_id", Codec.encode c.alphaId),
      ("instrument_id", Codec.encode c.instrumentId),
      ("config", Codec.encode c.config)]
  decode? place j := do
    let r ← Json.record? ["alpha_id", "instrument_id", "config"] place j
    some {
      alphaId := ← r.required? String "alpha_id"
      instrumentId := ← r.required? String "instrument_id"
      config := ← r.required? AlphaConfig "config" }

instance : Codec BatchConfig where
  encode c := Json.object [("chunk_size", Codec.encode c.chunkSize)]
  decode? place j := do
    let r ← Json.record? ["chunk_size"] place j
    some { chunkSize := ← r.default? "chunk_size" ({} : BatchConfig).chunkSize }

instance : Codec HealthConfig where
  encode c := Json.object [("probe_timeout_ms", Codec.encode c.probeTimeoutMs)]
  decode? place j := do
    let r ← Json.record? ["probe_timeout_ms"] place j
    some { probeTimeoutMs := ← r.default? "probe_timeout_ms" ({} : HealthConfig).probeTimeoutMs }

instance : Codec EngineConfig where
  encode c := Json.object
    [("registrations", Codec.encode c.registrations),
      ("batch", Codec.encode c.batch),
      ("health", Codec.encode c.health)]
  decode? place j := do
    let r ← Json.record? ["registrations", "batch", "health"] place j
    some {
      registrations := ← r.default? "registrations" ([] : List RegistrationConfig)
      batch := ← r.default? "batch" ({} : BatchConfig)
      health := ← r.default? "health" ({} : HealthConfig) }

/-! ## Checking and loading -/

/-- Checks the settings of one estimator. -/
def RegistrationConfig.validate (c : RegistrationConfig) : Except ConfigError Unit :=
  if c.alphaId.isEmpty || c.instrumentId.isEmpty then .error .emptyName
  else c.config.validate.mapError (.alpha c.alphaId c.instrumentId)

namespace EngineConfig

/-- Checks settings, the first fault found being reported. -/
def validate (c : EngineConfig) : Except ConfigError Unit :=
  if c.batch.chunkSize = 0 then .error .chunkSize
  else c.registrations.forM (·.validate)

/-- Reads and checks the text of settings. -/
def ofText (text : String) : Except ConfigError EngineConfig :=
  match Codec.read? EngineConfig text with
  | none => .error .malformed
  | some c => c.validate.map fun _ => c

/-- Reads and checks settings from a file whose content, or the reason why there
is none, is given. -/
def ofFile (path : String) (content : Except String String) : Except ConfigError EngineConfig :=
  match content with
  | .error reason => .error (.unreadable path reason)
  | .ok text => ofText text

end EngineConfig

end MarketSignals
