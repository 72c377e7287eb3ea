import MarketSignals.Proofs.Json.Settings
import MarketSignals.Proofs.Regime.Bookkeeping

/-!
# Texts that read back

An event, an output, the settings of an estimator and those of an engine read back from
the text written for them, whatever their strings hold, as long as every float is finite.
The same is true of whatever was read from any text, since a reader only gives values that
can be written.

## Main definitions

* `RoundTrips` — what is written reads back, and what was read can be written.

## Main results

* `EngineConfig.writable_of_validate` — settings that pass the check have finite floats.
* `texts_read_back` — the four formats round-trip.
-/

namespace MarketSignals

open Codec (Lawful)
open Codec.Lawful (Writable depth read?_write writable_of_read?)

/-! ## Settings that pass their check -/

/-- Comparisons of floats are of one kind. -/
theorem float_le_of_lt {x y : Float} (h : x < y) : x ≤ y := by
  have hcompare : (x.toModel.unpack.compare y.toModel.unpack == some .lt) = true :=
    of_decide_eq_true h
  show decide (x.toModel ≤ y.toModel) = true
  refine decide_eq_true ?_
  show (x.toModel.unpack.compare y.toModel.unpack).any (·.isLE) = true
  rw [eq_of_beq hcompare]
  rfl

/-- A float between two finite ones is finite. -/
theorem isFinite_of_lt_of_le {low x high : Float} (hlow : low.isFinite = true)
    (hhigh : high.isFinite = true) (hlowx : low < x) (hxhigh : x ≤ high) : x.isFinite = true := by
  have hlow' : low.toModel.unpack.isFinite = true := hlow
  have hhigh' : high.toModel.unpack.isFinite = true := hhigh
  have hlowx' : (low.toModel.unpack.compare x.toModel.unpack == some .lt) = true :=
    of_decide_eq_true hlowx
  have hxhigh' : (x.toModel.unpack.compare high.toModel.unpack).any (·.isLE) = true :=
    of_decide_eq_true hxhigh
  show x.toModel.unpack.isFinite = true
  generalize low.toModel.unpack = low' at hlow' hlowx'
  generalize high.toModel.unpack = high' at hhigh' hxhigh'
  generalize x.toModel.unpack = x' at hlowx' hxhigh' ⊢
  cases x' with
  | zero sign => rfl
  | finite sign mantissa exponent hpos => rfl
  | notANumber => cases high' <;> cases hxhigh'
  | infinity sign =>
      cases sign with
      | positive =>
          cases high' with
          | zero _ => cases hxhigh'
          | finite _ _ _ _ => cases hxhigh'
          | notANumber => cases hhigh'
          | infinity _ => cases hhigh'
      | negative =>
          cases low' with
          | zero _ => cases hlowx'
          | finite low _ _ _ => cases low <;> cases hlowx'
          | notANumber => cases hlow'
          | infinity _ => cases hlow'

/-- The counts of settings fit in 64 bits. -/
def AlphaConfig.CountsFit : AlphaConfig → Prop
  | .garch _ => True
  | .klRegime c =>
      c.nBins < UInt64.size ∧ c.windowLength < UInt64.size ∧
        ∀ n ∈ c.referenceSize, n < UInt64.size
  | .ofi c =>
      match c.resetPolicy with
      | .periodic everyEvents => everyEvents < UInt64.size
      | _ => True

/-- The counts of the settings of an engine fit in 64 bits. -/
structure EngineConfig.CountsFit (c : EngineConfig) : Prop where
  registrations : ∀ r ∈ c.registrations, r.config.CountsFit
  chunkSize : c.batch.chunkSize < UInt64.size
  probeTimeoutMs : c.health.probeTimeoutMs < UInt64.size

theorem Garch.Config.writable_of_params {c : Garch.Config} {p : Garch.Params Float}
    (h : c.params = .ok p) : c.Writable := by
  obtain ⟨q, hq, h⟩ := bind_eq_ok_iff.mp h
  have hcheck := mapError_eq_ok_iff.mp hq
  unfold Garch.Params.check at hcheck
  split at hcheck
  · cases hcheck
  next hfinite =>
  split at h
  · cases h
  next hinitial =>
  simp only [Bool.not_eq_true', Bool.not_eq_false, Bool.and_eq_true] at hfinite
  simp only [Bool.or_eq_true, Bool.not_eq_true', not_or, Bool.not_eq_false] at hinitial
  exact ⟨hfinite.1.1, hfinite.1.2, hfinite.2, hinitial.1⟩

theorem Regime.Config.isFinite_of_binning {c : Regime.Config} {b : Binning}
    (h : c.binning = .ok b) : c.domainMin.isFinite = true ∧ c.domainMax.isFinite = true := by
  unfold binning Binning.of? at h
  split at h
  · next b' hb' =>
      split at hb'
      · next hok =>
          simp only [Bool.and_eq_true] at hok
          exact hok.1.1
      · cases hb'
  · cases h

theorem Regime.Config.writable_of_validate {c : Regime.Config} {b : Binning}
    (hcounts : (AlphaConfig.klRegime c).CountsFit) (h : c.validate = .ok b) : c.Writable := by
  obtain ⟨-, hbinning, -, -, hthreshold, hepsilon, -⟩ := Regime.validate_eq_ok_iff.mp h
  obtain ⟨hmin, hmax⟩ := isFinite_of_binning hbinning
  exact
    { nBins := hcounts.1
      domainMin := hmin
      domainMax := hmax
      windowLength := hcounts.2.1
      threshold := isFinite_of_lt_of_le (by decide) (by decide) hthreshold.1 (float_le_of_lt hthreshold.2)
      epsilon := hepsilon
      referenceSize := hcounts.2.2 }

theorem OrderFlow.Config.writable_of_validate {c : OrderFlow.Config}
    (hcounts : (AlphaConfig.ofi c).CountsFit) (h : c.validate = .ok ()) : c.Writable := by
  obtain ⟨marketCap, resetPolicy⟩ := c
  unfold validate at h
  split at h
  next hcap =>
    refine ⟨(Bool.and_eq_true_iff.mp hcap).1, ?_⟩
    cases resetPolicy with
    | manual => trivial
    | decay factor =>
        simp only [OrderFlow.ResetPolicy.validate] at h
        split at h
        next hfactor => exact isFinite_of_lt_of_le (by decide) (by decide) hfactor.1 hfactor.2
        · cases h
    | periodic everyEvents => exact hcounts
  · cases h

theorem AlphaConfig.writable_of_validate {c : AlphaConfig} (hcounts : c.CountsFit)
    (h : c.validate = .ok ()) : c.Writable := by
  cases c with
  | garch c =>
      obtain ⟨p, hp, -⟩ := map_eq_ok_iff.mp h
      exact Garch.Config.writable_of_params (mapError_eq_ok_iff.mp hp)
  | klRegime c =>
      obtain ⟨b, hb, -⟩ := map_eq_ok_iff.mp h
      exact Regime.Config.writable_of_validate hcounts (mapError_eq_ok_iff.mp hb)
  | ofi c => exact OrderFlow.Config.writable_of_validate hcounts (mapError_eq_ok_iff.mp h)

/-- Settings of an engine that pass the check can be written. -/
theorem EngineConfig.writable_of_validate {c : EngineConfig} (hcounts : c.CountsFit)
    (h : c.validate = .ok ()) : c.Writable := by
  unfold validate at h
  split at h
  · cases h
  refine ⟨?_, hcounts.chunkSize, hcounts.probeTimeoutMs⟩
  intro r hr
  have hregistration := forM_eq_ok_iff.mp h r hr
  unfold RegistrationConfig.validate at hregistration
  split at hregistration
  · cases hregistration
  · exact AlphaConfig.writable_of_validate (hcounts.registrations r hr)
      (mapError_eq_ok_iff.mp hregistration)

/-- Settings that are read and pass the check are taken. -/
theorem EngineConfig.ofText_of_read? {text : String} {c : EngineConfig}
    (hread : Codec.read? EngineConfig text = some c) (hvalid : c.validate = .ok ()) :
    EngineConfig.ofText text = .ok c := by
  unfold EngineConfig.ofText
  simp only [hread, hvalid]
  rfl

/-! ## Round trips -/

/-- Values of a type read back from their texts: those with the property, and with them
whatever was read from some text. -/
structure RoundTrips (α : Type) [Codec α] (p : α → Prop) : Prop where
  read?_write : ∀ x, p x → Codec.read? α (Codec.write x) = some x
  of_read? : ∀ text x, Codec.read? α text = some x →
    p x ∧ Codec.read? α (Codec.write x) = some x

theorem Codec.Lawful.roundTrips {α : Type} [Codec α] [Lawful α] (hdepth : depth α ≤ Json.deepest) :
    RoundTrips α (Writable (α := α)) where
  read?_write _ hx := Lawful.read?_write hx hdepth
  of_read? _ _ h := ⟨writable_of_read? h, read?_write_of_read? h hdepth⟩

/-- Events, outputs, the settings of an estimator and those of an engine read back from what
is written for them, and what was read from any text can be written and reads back again.
Settings of an engine that pass the check are among those that can be written, so they are
loaded from their own text. -/
theorem texts_read_back :
    RoundTrips MarketEvent MarketEvent.Writable ∧ RoundTrips SignalOutput SignalOutput.Writable ∧
      RoundTrips AlphaConfig AlphaConfig.Writable ∧
      RoundTrips EngineConfig EngineConfig.Writable ∧
      ∀ c : EngineConfig, c.CountsFit → c.validate = .ok () →
        c.Writable ∧ EngineConfig.ofText (Codec.write c) = .ok c := by
  have hsettings : RoundTrips EngineConfig EngineConfig.Writable := Lawful.roundTrips (by decide)
  refine ⟨Lawful.roundTrips (by decide), Lawful.roundTrips (by decide),
    Lawful.roundTrips (by decide), hsettings, ?_⟩
  intro c hcounts hvalid
  have hwritable := EngineConfig.writable_of_validate hcounts hvalid
  exact ⟨hwritable, EngineConfig.ofText_of_read? (hsettings.read?_write c hwritable) hvalid⟩

/-- An event as the list of its fields, its name given by the two halves of a pair. -/
def listedEvent : String := "[7,\"\\ud83d\\ude00\",1,2,3e0,4.5,null]"

theorem read?_listedEvent :
    Codec.read? MarketEvent listedEvent = some ⟨⟨7⟩, ⟨"😀"⟩, 1, 2, 3, 4.5, none⟩ := by rfl

/-- Settings in another order, with a member too many and others left out. -/
def looseSettings : String :=
  "\x7b\"extra\":[1],\"health\":\x7b\x7d,\"batch\":\x7b\"chunk_size\":3\x7d\x7d"

theorem read?_looseSettings :
    Codec.read? EngineConfig looseSettings = some { batch := ⟨3⟩ } := by
  have hfields : (Codec.read? EngineConfig looseSettings).map
      (fun c => (c.batch, c.health, c.registrations.length)) = some (⟨3⟩, ⟨50⟩, 0) := by
    decide +kernel
  obtain ⟨⟨registrations, batch, health⟩, hread, hfields⟩ := Option.map_eq_some_iff.mp hfields
  simp only [Prod.mk.injEq, List.length_eq_zero_iff] at hfields
  obtain ⟨rfl, rfl, rfl⟩ := hfields
  exact hread

/-- An event whose name needs escapes, the event and the settings of these texts, and
settings that pass the check. -/
theorem texts_read_back_escaped :
    let event : MarketEvent := ⟨⟨7⟩, ⟨"a\"\\\n😀"⟩, 0.1, -0, 3, 1e22, some ⟨1, 2.5⟩⟩
    let listed : MarketEvent := ⟨⟨7⟩, ⟨"😀"⟩, 1, 2, 3, 4.5, none⟩
    let completed : EngineConfig := { batch := ⟨3⟩ }
    let settings : EngineConfig := { registrations := [⟨"ofi", "X", .ofi { marketCap := 100 }⟩] }
    Codec.read? MarketEvent (Codec.write event) = some event ∧
      Codec.read? MarketEvent listedEvent = some listed ∧
      Codec.read? MarketEvent (Codec.write listed) = some listed ∧
      Codec.read? EngineConfig looseSettings = some completed ∧
      Codec.read? EngineConfig (Codec.write completed) = some completed ∧
      EngineConfig.ofText (Codec.write settings) = .ok settings := by
  intro event listed completed settings
  obtain ⟨hevents, -, -, hsettings, hchecked⟩ := texts_read_back
  refine ⟨hevents.read?_write event ?_, read?_listedEvent,
    (hevents.of_read? _ _ read?_listedEvent).2, read?_looseSettings,
    (hsettings.of_read? _ _ read?_looseSettings).2, (hchecked settings ?_ ?_).2⟩
  · refine ⟨by decide, by decide, by decide, by decide, ?_⟩
    rintro t ⟨⟩
    exact ⟨by decide, by decide⟩
  · refine ⟨?_, by decide, by decide⟩
    intro r hr
    rw [List.mem_singleton.mp hr]
    trivial
  · rfl

end MarketSignals
