import MarketSignals.Garch.Estimator
import MarketSignals.Regime.Estimator
import MarketSignals.OrderFlow.Estimator

/-!
# Settings of the estimators that come with the engine

One case per family.  In JSON the case is named by the member `kind`, which
stands among the settings themselves.
-/

namespace MarketSignals

/-! ## JSON of the single families -/

instance : Codec Garch.Config where
  encode c := Json.object
    [("omega", Codec.encode c.omega),
      ("alpha", Codec.encode c.alpha),
      ("beta", Codec.encode c.beta),
      ("sigma2_init", Codec.encode c.initialVariance),
      ("input", Codec.encode c.input)]
  decode? place j := do
    let r ← Json.record? ["omega", "alpha", "beta", "sigma2_init", "input"] place j
    some {
      omega := ← r.required? Float "omega"
      alpha := ← r.required? Float "alpha"
      beta := ← r.required? Float "beta"
      initialVariance := ← r.required? Float "sigma2_init"
      input := ← r.default? "input" ({} : ReturnInput) }

instance : Codec Regime.Config where
  encode c := Json.object
    [("n_bins", Codec.encode c.nBins),
      ("domain_min", Codec.encode c.domainMin),
      ("domain_max", Codec.encode c.domainMax),
      ("window_m", Codec.encode c.windowLength),
      ("threshold_p", Codec.encode c.threshold),
      ("smoothing_epsilon", Codec.encode c.epsilon),
      ("reference_size", Codec.encode c.referenceSize),
      ("input", Codec.encode c.input)]
  decode? place j := do
    let r ← Json.record?
      ["n_bins", "domain_min", "domain_max", "window_m", "threshold_p", "smoothing_epsilon",
        "reference_size", "input"] place j
    some {
      nBins := ← r.required? Nat "n_bins"
      domainMin := ← r.required? Float "domain_min"
      domainMax := ← r.required? Float "domain_max"
      windowLength := ← r.required? Nat "window_m"
      threshold := ← r.required? Float "threshold_p"
      epsilon := ← r.required? Float "smoothing_epsilon"
      referenceSize := ← r.optional? Nat "reference_size"
      input := ← r.default? "input" ({} : ReturnInput) }

/-- The cases of a reset policy, named without their figures. -/
inductive ResetPolicyCase where
  | manual
  | decay
  | periodic
  deriving Repr, DecidableEq

/-- The cases of a reset policy by name. -/
def ResetPolicyCase.cases : List (String × ResetPolicyCase) :=
  [("manual", manual), ("decay", decay), ("periodic", periodic)]

instance : Codec (OrderFlow.ResetPolicy Float) where
  encode
    | .manual => Json.tagged "policy" "manual" []
    | .decay factor => Json.tagged "policy" "decay" [("factor", Codec.encode factor)]
    | .periodic everyEvents =>
        Json.tagged "policy" "periodic" [("every_events", Codec.encode everyEvents)]
  decode? place j := do
    let (policy, rest) ← Json.tagged? "policy" ResetPolicyCase.cases place j
    match policy with
    | .manual =>
        let _ ← Json.noFields? rest
        some .manual
    | .decay =>
        let r ← Json.record? ["factor"] .held rest
        some (.decay (← r.required? Float "factor"))
    | .periodic =>
        let r ← Json.record? ["every_events"] .held rest
        some (.periodic (← r.required? Nat "every_events"))

instance : Codec OrderFlow.Config where
  encode c := Json.object
    [("market_cap", Codec.encode c.marketCap), ("reset_policy", Codec.encode c.resetPolicy)]
  decode? place j := do
    let r ← Json.record? ["market_cap", "reset_policy"] place j
    some {
      marketCap := ← r.required? Float "market_cap"
      resetPolicy := ←
        r.default? "reset_policy" (OrderFlow.ResetPolicy.manual : OrderFlow.ResetPolicy Float) }

/-! ## All families -/

/-- The settings of one estimator. -/
inductive AlphaConfig where
  | garch (config : Garch.Config)
  | klRegime (config : Regime.Config)
  | ofi (config : OrderFlow.Config)

/-- Why settings are refused. -/
inductive AlphaConfigFault where
  | garch (fault : Garch.ConfigFault)
  | klRegime (fault : Regime.ConfigFault)
  | ofi (fault : OrderFlow.ConfigFault)

namespace AlphaConfigFault

/-- The wording of refused settings. -/
def message : AlphaConfigFault → String
  | garch fault => fault.message
  | klRegime fault => fault.message
  | ofi fault => fault.message

/-- Refused settings as an error of the engine. -/
def toEngineError (fault : AlphaConfigFault) : EngineError := .invalidInput fault.message

end AlphaConfigFault

namespace AlphaConfig

/-- The family that is set up. -/
def kind : AlphaConfig → AlphaKind
  | garch _ => .garch
  | klRegime _ => .klRegime
  | ofi _ => .ofi

/-- Checks settings. -/
def validate : AlphaConfig → Except AlphaConfigFault Unit
  | garch c => (c.params.mapError .garch).map fun _ => ()
  | klRegime c => (c.validate.mapError .klRegime).map fun _ => ()
  | ofi c => c.validate.mapError .ofi

/-- The members of an object without its braces. -/
def membersOf : Json → List (Option String × Json)
  | .obj members => members
  | _ => []

/-- The settings of a family with the tag in front. -/
instance : Codec AlphaConfig where
  encode c :=
    let settings : Json := match c with
      | garch c => Codec.encode c
      | klRegime c => Codec.encode c
      | ofi c => Codec.encode c
    .obj ((some "kind", Json.ofString c.kind.name) :: membersOf settings)
  decode? place j := do
    let (kind, rest) ← Json.tagged? "kind" AlphaKind.cases place j
    match kind with
    | .garch => (Codec.decode? .held rest).map garch
    | .klRegime => (Codec.decode? .held rest).map klRegime
    | .ofi => (Codec.decode? .held rest).map ofi

end AlphaConfig

end MarketSignals
