import MarketSignals.Market.Event

/-!
# Signals

What estimators put out: a value, whether it rests on enough data, and the
figures behind it.  The registry stamps a reading with the estimator's name, its
instrument and the time of the event.
-/

namespace MarketSignals

/-- The family of an estimator. -/
inductive AlphaKind where
  /-- Conditional volatility. -/
  | garch
  /-- Regime shifts by divergence from a reference. -/
  | klRegime
  /-- Order-flow imbalance. -/
  | ofi
  deriving Repr, DecidableEq

namespace AlphaKind

/-- The name of a family. -/
def name : AlphaKind → String
  | garch => "garch"
  | klRegime => "kl_regime"
  | ofi => "ofi"

/-- All families. -/
def all : List AlphaKind := [garch, klRegime, ofi]

/-- The families by name. -/
def cases : List (String × AlphaKind) := all.map fun k => (k.name, k)

instance : Codec AlphaKind where
  encode k := Json.ofString k.name
  decode? := Json.choice? cases

end AlphaKind

/-- Whether a reading rests on enough data. -/
inductive SignalStatus where
  | ready
  /-- Still warming up; the value only fills the place of a statistic. -/
  | insufficientData (collected required : Nat)
  deriving Repr, DecidableEq

/-- Whether warm-up is over. -/
def SignalStatus.isReady : SignalStatus → Bool
  | ready => true
  | insufficientData .. => false

/-- The figures behind a reading. -/
inductive SignalDetail where
  /-- The variance, and the return that the update consumed; the event that
  seeds the price carries none. -/
  | garch (variance : Float) (lastReturn : Option Float)
  | klRegime (isShift : Bool) (statistic pValue klDivergence : Float)
  | ofi (step cumulative volumeNormalized : Float)

/-- The result of an estimator. -/
structure SignalReading where
  value : Float
  status : SignalStatus
  detail : SignalDetail

/-- A reading attributed to an estimator, an instrument and an event time. -/
structure SignalOutput where
  alphaId : AlphaId
  instrumentId : InstrumentId
  timestamp : Timestamp
  value : Float
  status : SignalStatus
  detail : SignalDetail

namespace SignalOutput

/-- Attributes a reading. -/
def ofReading (alphaId : AlphaId) (instrumentId : InstrumentId) (timestamp : Timestamp)
    (reading : SignalReading) : SignalOutput :=
  { alphaId, instrumentId, timestamp
    value := reading.value
    status := reading.status
    detail := reading.detail }

/-- Whether warm-up is over. -/
def isReady (o : SignalOutput) : Bool := o.status.isReady

/-- Whether the output reports a regime shift; never during warm-up. -/
def isShift (o : SignalOutput) : Bool :=
  o.status.isReady &&
    match o.detail with
    | .klRegime isShift .. => isShift
    | _ => false

end SignalOutput

/-! ## JSON -/

instance : Codec SignalStatus where
  encode
    | .ready => Json.tagged "state" "ready" []
    | .insufficientData collected required =>
        Json.tagged "state" "insufficient_data"
          [("collected", Codec.encode collected), ("required", Codec.encode required)]
  decode? place j := do
    let (ready, rest) ← Json.tagged? "state" [("ready", true), ("insufficient_data", false)] place j
    if ready then
      let _ ← Json.noFields? rest
      some .ready
    else
      let r ← Json.record? ["collected", "required"] .held rest
      some (.insufficientData (← r.required? Nat "collected") (← r.required? Nat "required"))

instance : Codec SignalDetail where
  encode
    | .garch variance lastReturn =>
        Json.tagged "kind" AlphaKind.garch.name
          [("variance", Codec.encode variance), ("last_return", Codec.encode lastReturn)]
    | .klRegime isShift statistic pValue klDivergence =>
        Json.tagged "kind" AlphaKind.klRegime.name
          [("is_shift", Codec.encode isShift),
            ("statistic", Codec.encode statistic),
            ("p_value", Codec.encode pValue),
            ("kl_divergence", Codec.encode klDivergence)]
    | .ofi step cumulative volumeNormalized =>
        Json.tagged "kind" AlphaKind.ofi.name
          [("ofi_step", Codec.encode step),
            ("cum_ofi", Codec.encode cumulative),
            ("volume_normalized", Codec.encode volumeNormalized)]
  decode? place j := do
    let (kind, rest) ← Json.tagged? "kind" AlphaKind.cases place j
    match kind with
    | .garch =>
        let r ← Json.record? ["variance", "last_return"] .held rest
        some (.garch (← r.required? Float "variance") (← r.nullable? Float "last_return"))
    | .klRegime =>
        let r ← Json.record? ["is_shift", "statistic", "p_value", "kl_divergence"] .held rest
        some (.klRegime (← r.required? Bool "is_shift") (← r.required? Float "statistic")
          (← r.required? Float "p_value") (← r.required? Float "kl_divergence"))
    | .ofi =>
        let r ← Json.record? ["ofi_step", "cum_ofi", "volume_normalized"] .held rest
        some (.ofi (← r.required? Float "ofi_step") (← r.required? Float "cum_ofi")
          (← r.required? Float "volume_normalized"))

instance : Codec SignalReading where
  encode r := Json.object
    [("value", Codec.encode r.value),
      ("status", Codec.encode r.status),
      ("detail", Codec.encode r.detail)]
  decode? place j := do
    let r ← Json.record? ["value", "status", "detail"] place j
    some {
      value := ← r.required? Float "value"
      status := ← r.required? SignalStatus "status"
      detail := ← r.required? SignalDetail "detail" }

instance : Codec SignalOutput where
  encode o := Json.object
    [("alpha_id", Codec.encode o.alphaId),
      ("instrument_id", Codec.encode o.instrumentId),
      ("timestamp", Codec.encode o.timestamp),
      ("value", Codec.encode o.value),
      ("status", Codec.encode o.status),
      ("detail", Codec.encode o.detail)]
  decode? place j := do
    let r ← Json.record?
      ["alpha_id", "instrument_id", "timestamp", "value", "status", "detail"] place j
    some {
      alphaId := ← r.required? AlphaId "alpha_id"
      instrumentId := ← r.required? InstrumentId "instrument_id"
      timestamp := ← r.required? Timestamp "timestamp"
      value := ← r.required? Float "value"
      status := ← r.required? SignalStatus "status"
      detail := ← r.required? SignalDetail "detail" }

end MarketSignals
