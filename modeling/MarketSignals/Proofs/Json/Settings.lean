import MarketSignals.Proofs.Json.Data
import MarketSignals.Engine.Config

/-!
# Settings as JSON

The codecs of the settings obey the laws: those of the single families, whose return
convention and reset policy have defaults, the tagged union of the families, and the
settings of a whole engine.

## Main definitions

* `AlphaConfig.Writable`, `EngineConfig.Writable` — settings whose floats are finite and
  whose counts fit in 64 bits.
-/

namespace MarketSignals

open Codec (Lawful)
open Codec.Lawful (Writable depth plain_encode decode?_encode writable_of_decode?)
open Json (Plain plain_nil plain_cons bind_of_some record?_object tagged?_tagged choice?_ofString)
open Json.Record (required?_encode default?_encode optional?_encode writable_of_required?
  writable_of_default? writable_of_optional?)

/-! ## Return conventions -/

instance : Lawful PriceSource where
  Writable _ := True
  depth := 0
  plain_encode _ := .str _
  decode?_encode {s place} _ _ := by cases s <;> exact choice?_ofString _ place _
  writable_of_decode? _ := trivial

instance : Lawful ReturnKind where
  Writable _ := True
  depth := 0
  plain_encode _ := .str _
  decode?_encode {k place} _ _ := by cases k <;> exact choice?_ofString _ place _
  writable_of_decode? _ := trivial

instance : Lawful ReturnInput where
  Writable _ := True
  depth := 1
  plain_encode {i} _ :=
    Plain.object <|
      plain_cons (x := i.source) trivial (by decide) <|
      plain_cons (x := i.kind) trivial (by decide) plain_nil
  decode?_encode {i place} _ _ := by
    have hflat : 0 ≤ place.inside.room := Nat.zero_le _
    refine bind_of_some (record?_object place (.refl _) (by decide)) ?_
    refine bind_of_some (default?_encode rfl (x := i.source) trivial hflat) ?_
    refine bind_of_some (default?_encode rfl (x := i.kind) trivial hflat) ?_
    rfl
  writable_of_decode? _ := trivial

/-! ## Families -/

/-- Settings of a volatility estimator with finite floats. -/
structure Garch.Config.Writable (c : Garch.Config) : Prop where
  omega : c.omega.isFinite = true
  alpha : c.alpha.isFinite = true
  beta : c.beta.isFinite = true
  initialVariance : c.initialVariance.isFinite = true

instance : Lawful Garch.Config where
  Writable := Garch.Config.Writable
  depth := 2
  plain_encode {c} hc :=
    Plain.object <|
      plain_cons hc.omega (by decide) <| plain_cons hc.alpha (by decide) <|
      plain_cons hc.beta (by decide) <| plain_cons hc.initialVariance (by decide) <|
      plain_cons (x := c.input) trivial (by decide) plain_nil
  decode?_encode {c place} hc hplace := by
    have hroom : 1 ≤ place.inside.room := Json.Place.le_room_inside hplace
    have hflat : 0 ≤ place.inside.room := Nat.zero_le _
    refine bind_of_some (record?_object place (.refl _) (by decide)) ?_
    refine bind_of_some (required?_encode rfl hc.omega hflat) ?_
    refine bind_of_some (required?_encode rfl hc.alpha hflat) ?_
    refine bind_of_some (required?_encode rfl hc.beta hflat) ?_
    refine bind_of_some (required?_encode rfl hc.initialVariance hflat) ?_
    refine bind_of_some (default?_encode rfl (x := c.input) trivial hroom) ?_
    rfl
  writable_of_decode? {place j c} h := by
    obtain ⟨r, -, h⟩ := Option.bind_eq_some_iff.mp h
    obtain ⟨omega, homega, h⟩ := Option.bind_eq_some_iff.mp h
    obtain ⟨alpha, halpha, h⟩ := Option.bind_eq_some_iff.mp h
    obtain ⟨beta, hbeta, h⟩ := Option.bind_eq_some_iff.mp h
    obtain ⟨initialVariance, hinitialVariance, h⟩ := Option.bind_eq_some_iff.mp h
    obtain ⟨input, -, h⟩ := Option.bind_eq_some_iff.mp h
    cases h
    exact ⟨writable_of_required? homega, writable_of_required? halpha,
      writable_of_required? hbeta, writable_of_required? hinitialVariance⟩

/-- Settings of a regime detector with finite floats, and with counts that fit in 64
bits. -/
structure Regime.Config.Writable (c : Regime.Config) : Prop where
  nBins : c.nBins < UInt64.size
  domainMin : c.domainMin.isFinite = true
  domainMax : c.domainMax.isFinite = true
  windowLength : c.windowLength < UInt64.size
  threshold : c.threshold.isFinite = true
  epsilon : c.epsilon.isFinite = true
  referenceSize : ∀ n ∈ c.referenceSize, n < UInt64.size

instance : Lawful Regime.Config where
  Writable := Regime.Config.Writable
  depth := 2
  plain_encode {c} hc :=
    Plain.object <|
      plain_cons hc.nBins (by decide) <| plain_cons hc.domainMin (by decide) <|
      plain_cons hc.domainMax (by decide) <| plain_cons hc.windowLength (by decide) <|
      plain_cons hc.threshold (by decide) <| plain_cons hc.epsilon (by decide) <|
      plain_cons hc.referenceSize (by decide) <|
      plain_cons (x := c.input) trivial (by decide) plain_nil
  decode?_encode {c place} hc hplace := by
    have hroom : 1 ≤ place.inside.room := Json.Place.le_room_inside hplace
    have hflat : 0 ≤ place.inside.room := Nat.zero_le _
    refine bind_of_some (record?_object place (.refl _) (by decide)) ?_
    refine bind_of_some (required?_encode rfl hc.nBins hflat) ?_
    refine bind_of_some (required?_encode rfl hc.domainMin hflat) ?_
    refine bind_of_some (required?_encode rfl hc.domainMax hflat) ?_
    refine bind_of_some (required?_encode rfl hc.windowLength hflat) ?_
    refine bind_of_some (required?_encode rfl hc.threshold hflat) ?_
    refine bind_of_some (required?_encode rfl hc.epsilon hflat) ?_
    refine bind_of_some (optional?_encode rfl hc.referenceSize hflat) ?_
    refine bind_of_some (default?_encode rfl (x := c.input) trivial hroom) ?_
    rfl
  writable_of_decode? {place j c} h := by
    obtain ⟨r, -, h⟩ := Option.bind_eq_some_iff.mp h
    obtain ⟨nBins, hnBins, h⟩ := Option.bind_eq_some_iff.mp h
    obtain ⟨domainMin, hdomainMin, h⟩ := Option.bind_eq_some_iff.mp h
    obtain ⟨domainMax, hdomainMax, h⟩ := Option.bind_eq_some_iff.mp h
    obtain ⟨windowLength, hwindowLength, h⟩ := Option.bind_eq_some_iff.mp h
    obtain ⟨threshold, hthreshold, h⟩ := Option.bind_eq_some_iff.mp h
    obtain ⟨epsilon, hepsilon, h⟩ := Option.bind_eq_some_iff.mp h
    obtain ⟨referenceSize, hreferenceSize, h⟩ := Option.bind_eq_some_iff.mp h
    obtain ⟨input, -, h⟩ := Option.bind_eq_some_iff.mp h
    cases h
    exact ⟨writable_of_required? hnBins, writable_of_required? hdomainMin,
      writable_of_required? hdomainMax, writable_of_required? hwindowLength,
      writable_of_required? hthreshold, writable_of_required? hepsilon,
      writable_of_optional? hreferenceSize⟩

/-- A policy with a finite factor, or with a period that fits in 64 bits. -/
def OrderFlow.ResetPolicy.Writable : OrderFlow.ResetPolicy Float → Prop
  | .manual => True
  | .decay factor => factor.isFinite = true
  | .periodic everyEvents => everyEvents < UInt64.size

theorem OrderFlow.ResetPolicy.Writable.plain {p : OrderFlow.ResetPolicy Float}
    (hp : p.Writable) : Plain 1 (Codec.encode p) := by
  cases p with
  | manual => exact Plain.tagged _ _ plain_nil
  | decay factor => exact Plain.tagged _ _ (plain_cons (α := Float) hp (by decide) plain_nil)
  | periodic everyEvents =>
      exact Plain.tagged _ _ (plain_cons (α := Nat) hp (by decide) plain_nil)

instance : Lawful (OrderFlow.ResetPolicy Float) where
  Writable := OrderFlow.ResetPolicy.Writable
  depth := 1
  plain_encode := OrderFlow.ResetPolicy.Writable.plain
  decode?_encode {p place} hp hplace := by
    have hheld : 0 ≤ Json.Place.held.room := Nat.zero_le _
    cases p with
    | manual => exact bind_of_some (tagged?_tagged hp.plain hplace rfl (by simp)) rfl
    | decay factor =>
        refine bind_of_some (tagged?_tagged hp.plain hplace rfl (by simp)) ?_
        dsimp only
        refine bind_of_some (record?_object .held (.refl _) (by decide)) ?_
        exact bind_of_some (required?_encode (α := Float) rfl hp hheld) rfl
    | periodic everyEvents =>
        refine bind_of_some (tagged?_tagged hp.plain hplace rfl (by simp)) ?_
        dsimp only
        refine bind_of_some (record?_object .held (.refl _) (by decide)) ?_
        exact bind_of_some (required?_encode (α := Nat) rfl hp hheld) rfl
  writable_of_decode? {place j p} h := by
    obtain ⟨⟨policy, rest⟩, -, h⟩ := Option.bind_eq_some_iff.mp h
    cases policy with
    | manual =>
        obtain ⟨-, -, h⟩ := Option.bind_eq_some_iff.mp h
        cases h
        trivial
    | decay =>
        obtain ⟨r, -, h⟩ := Option.bind_eq_some_iff.mp h
        obtain ⟨factor, hfactor, h⟩ := Option.bind_eq_some_iff.mp h
        cases h
        exact writable_of_required? (α := Float) hfactor
    | periodic =>
        obtain ⟨r, -, h⟩ := Option.bind_eq_some_iff.mp h
        obtain ⟨everyEvents, heveryEvents, h⟩ := Option.bind_eq_some_iff.mp h
        cases h
        exact writable_of_required? (α := Nat) heveryEvents

/-- Settings of an order-flow estimator with finite floats. -/
structure OrderFlow.Config.Writable (c : OrderFlow.Config) : Prop where
  marketCap : c.marketCap.isFinite = true
  resetPolicy : c.resetPolicy.Writable

instance : Lawful OrderFlow.Config where
  Writable := OrderFlow.Config.Writable
  depth := 2
  plain_encode {c} hc :=
    Plain.object <|
      plain_cons hc.marketCap (by decide) <| plain_cons hc.resetPolicy (by decide) plain_nil
  decode?_encode {c place} hc hplace := by
    have hroom : 1 ≤ place.inside.room := Json.Place.le_room_inside hplace
    have hflat : 0 ≤ place.inside.room := Nat.zero_le _
    refine bind_of_some (record?_object place (.refl _) (by decide)) ?_
    refine bind_of_some (required?_encode rfl hc.marketCap hflat) ?_
    refine bind_of_some (default?_encode rfl hc.resetPolicy hroom) ?_
    rfl
  writable_of_decode? {place j c} h := by
    obtain ⟨r, -, h⟩ := Option.bind_eq_some_iff.mp h
    obtain ⟨marketCap, hmarketCap, h⟩ := Option.bind_eq_some_iff.mp h
    obtain ⟨resetPolicy, hresetPolicy, h⟩ := Option.bind_eq_some_iff.mp h
    cases h
    have hmanual : Writable (OrderFlow.ResetPolicy.manual : OrderFlow.ResetPolicy Float) := trivial
    exact ⟨writable_of_required? hmarketCap, writable_of_default? hmanual hresetPolicy⟩

/-! ## All families -/

/-- Settings of one estimator that can be written. -/
def AlphaConfig.Writable : AlphaConfig → Prop
  | .garch c => c.Writable
  | .klRegime c => c.Writable
  | .ofi c => c.Writable

/-- A tag may stand in front of the members of a plain object. -/
theorem plain_tag {room : Nat} {members : List (Option String × Json)} (tag name : String)
    (h : Plain (room + 1) (.obj members)) :
    Plain (room + 1) (.obj ((some tag, Json.ofString name) :: members)) := by
  cases h with
  | obj names values_plain =>
      refine .obj ?_ ?_
      · intro m hm
        rcases List.mem_cons.mp hm with rfl | hm
        · rfl
        · exact names m hm
      · intro m hm
        rcases List.mem_cons.mp hm with rfl | hm
        · exact .str name
        · exact values_plain m hm

theorem AlphaConfig.Writable.plain {c : AlphaConfig} (hc : c.Writable) :
    Plain 2 (Codec.encode c) := by
  cases c with
  | garch c => exact plain_tag _ _ (plain_encode (α := Garch.Config) hc)
  | klRegime c => exact plain_tag _ _ (plain_encode (α := Regime.Config) hc)
  | ofi c => exact plain_tag _ _ (plain_encode (α := OrderFlow.Config) hc)

instance : Lawful AlphaConfig where
  Writable := AlphaConfig.Writable
  depth := 2
  plain_encode := AlphaConfig.Writable.plain
  decode?_encode {c place} hc hplace := by
    have hheld : 2 ≤ Json.Place.held.room := by decide
    cases c with
    | garch c =>
        refine bind_of_some (tagged?_tagged hc.plain hplace rfl (by simp)) ?_
        exact congrArg (Option.map AlphaConfig.garch)
          (decode?_encode (α := Garch.Config) hc hheld)
    | klRegime c =>
        refine bind_of_some (tagged?_tagged hc.plain hplace rfl (by simp)) ?_
        exact congrArg (Option.map AlphaConfig.klRegime)
          (decode?_encode (α := Regime.Config) hc hheld)
    | ofi c =>
        refine bind_of_some (tagged?_tagged hc.plain hplace rfl (by simp)) ?_
        exact congrArg (Option.map AlphaConfig.ofi)
          (decode?_encode (α := OrderFlow.Config) hc hheld)
  writable_of_decode? {place j c} h := by
    obtain ⟨⟨kind, rest⟩, -, h⟩ := Option.bind_eq_some_iff.mp h
    cases kind with
    | garch =>
        obtain ⟨c, hc, rfl⟩ := Option.map_eq_some_iff.mp h
        exact writable_of_decode? (α := Garch.Config) hc
    | klRegime =>
        obtain ⟨c, hc, rfl⟩ := Option.map_eq_some_iff.mp h
        exact writable_of_decode? (α := Regime.Config) hc
    | ofi =>
        obtain ⟨c, hc, rfl⟩ := Option.map_eq_some_iff.mp h
        exact writable_of_decode? (α := OrderFlow.Config) hc

/-! ## Engines -/

/-- An estimator to register that can be written. -/
def RegistrationConfig.Writable (c : RegistrationConfig) : Prop := c.config.Writable

instance : Lawful RegistrationConfig where
  Writable := RegistrationConfig.Writable
  depth := 3
  plain_encode {c} hc :=
    Plain.object <|
      plain_cons (x := c.alphaId) trivial (by decide) <|
      plain_cons (x := c.instrumentId) trivial (by decide) <|
      plain_cons (α := AlphaConfig) hc (by decide) plain_nil
  decode?_encode {c place} hc hplace := by
    have hroom : 2 ≤ place.inside.room := Json.Place.le_room_inside hplace
    have hflat : 0 ≤ place.inside.room := Nat.zero_le _
    refine bind_of_some (record?_object place (.refl _) (by decide)) ?_
    refine bind_of_some (required?_encode rfl (x := c.alphaId) trivial hflat) ?_
    refine bind_of_some (required?_encode rfl (x := c.instrumentId) trivial hflat) ?_
    refine bind_of_some (required?_encode (α := AlphaConfig) rfl hc hroom) ?_
    rfl
  writable_of_decode? {place j c} h := by
    obtain ⟨r, -, h⟩ := Option.bind_eq_some_iff.mp h
    obtain ⟨alphaId, -, h⟩ := Option.bind_eq_some_iff.mp h
    obtain ⟨instrumentId, -, h⟩ := Option.bind_eq_some_iff.mp h
    obtain ⟨config, hconfig, h⟩ := Option.bind_eq_some_iff.mp h
    cases h
    exact writable_of_required? (α := AlphaConfig) hconfig

instance : Lawful BatchConfig where
  Writable c := c.chunkSize < UInt64.size
  depth := 1
  plain_encode hc := Plain.object (plain_cons (α := Nat) hc (by decide) plain_nil)
  decode?_encode {c place} hc _ := by
    refine bind_of_some (record?_object place (.refl _) (by decide)) ?_
    exact bind_of_some (default?_encode (α := Nat) rfl hc (Nat.zero_le _)) rfl
  writable_of_decode? {place j c} h := by
    obtain ⟨r, -, h⟩ := Option.bind_eq_some_iff.mp h
    obtain ⟨chunkSize, hchunkSize, h⟩ := Option.bind_eq_some_iff.mp h
    cases h
    have hdefault : ({} : BatchConfig).chunkSize < UInt64.size := by decide
    exact writable_of_default? (α := Nat) hdefault hchunkSize

instance : Lawful HealthConfig where
  Writable c := c.probeTimeoutMs < UInt64.size
  depth := 1
  plain_encode hc := Plain.object (plain_cons (α := Nat) hc (by decide) plain_nil)
  decode?_encode {c place} hc _ := by
    refine bind_of_some (record?_object place (.refl _) (by decide)) ?_
    exact bind_of_some (default?_encode (α := Nat) rfl hc (Nat.zero_le _)) rfl
  writable_of_decode? {place j c} h := by
    obtain ⟨r, -, h⟩ := Option.bind_eq_some_iff.mp h
    obtain ⟨probeTimeoutMs, hprobeTimeoutMs, h⟩ := Option.bind_eq_some_iff.mp h
    cases h
    have hdefault : ({} : HealthConfig).probeTimeoutMs < UInt64.size := by decide
    exact writable_of_default? (α := Nat) hdefault hprobeTimeoutMs

/-- Settings of an engine whose floats are finite and whose counts fit in 64 bits. -/
structure EngineConfig.Writable (c : EngineConfig) : Prop where
  registrations : ∀ r ∈ c.registrations, r.Writable
  chunkSize : c.batch.chunkSize < UInt64.size
  probeTimeoutMs : c.health.probeTimeoutMs < UInt64.size

instance : Lawful EngineConfig where
  Writable := EngineConfig.Writable
  depth := 5
  plain_encode {c} hc :=
    Plain.object <|
      plain_cons (x := c.registrations) hc.registrations (by decide) <|
      plain_cons (x := c.batch) hc.chunkSize (by decide) <|
      plain_cons (x := c.health) hc.probeTimeoutMs (by decide) plain_nil
  decode?_encode {c place} hc hplace := by
    have hroom : 4 ≤ place.inside.room := Json.Place.le_room_inside hplace
    have hflat : 1 ≤ place.inside.room := by omega
    refine bind_of_some (record?_object place (.refl _) (by decide)) ?_
    refine bind_of_some (default?_encode rfl (x := c.registrations) hc.registrations hroom) ?_
    refine bind_of_some (default?_encode rfl (x := c.batch) hc.chunkSize hflat) ?_
    refine bind_of_some (default?_encode rfl (x := c.health) hc.probeTimeoutMs hflat) ?_
    rfl
  writable_of_decode? {place j c} h := by
    obtain ⟨r, -, h⟩ := Option.bind_eq_some_iff.mp h
    obtain ⟨registrations, hregistrations, h⟩ := Option.bind_eq_some_iff.mp h
    obtain ⟨batch, hbatch, h⟩ := Option.bind_eq_some_iff.mp h
    obtain ⟨health, hhealth, h⟩ := Option.bind_eq_some_iff.mp h
    cases h
    have hnone : Writable ([] : List RegistrationConfig) := by
      intro r hr
      cases hr
    have hchunkSize : Writable ({} : BatchConfig) := by
      show 1024 < UInt64.size
      decide
    have hprobeTimeoutMs : Writable ({} : HealthConfig) := by
      show 50 < UInt64.size
      decide
    exact ⟨writable_of_default? hnone hregistrations, writable_of_default? hchunkSize hbatch,
      writable_of_default? hprobeTimeoutMs hhealth⟩

end MarketSignals
