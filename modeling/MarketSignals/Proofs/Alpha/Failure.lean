import MarketSignals.Proofs.Alpha.Growth

/-!
# Failures of the engine's estimators

An estimator that refuses an event keeps the state it had.  The one exception is
a regime detector whose test fails: it has taken the sample in, and every later
call on it is refused until it is reset.

## Main definitions

* `Alpha.Sound` — a detector is in step with some history.
* `Alpha.TestFailed` — the exception.

## Main results

* `Alpha.closed_sound` — every call keeps an estimator sound.
* `Alpha.update_error` — a failed update changes nothing, or is the exception.
-/

namespace MarketSignals.Alpha

open Regime (Fresh InStep History)

/-- A detector is in step with some history since it was built. -/
def Sound : Alpha → Prop
  | klRegime e => ∃ e₀ past, Fresh e₀ ∧ InStep e₀ past e
  | _ => True

/-- The test with the return of an event fails: the detector takes the return in
and gives no reading. -/
def TestFails (event : MarketEvent) : Alpha → Prop
  | klRegime e => (∃ x, e.sample? (.update event) = some x) ∧
      ∃ fault, (e.update event).1 = .error fault
  | _ => False

/-- Whether an estimator refuses events by itself until it is reset. -/
def isDisabled : Alpha → Bool
  | klRegime e => e.disabled
  | _ => false

/-- A detector has taken the return of an event in, and the test that follows has
failed. -/
def TestFailed (event : MarketEvent) (a a' : Alpha) (fault : Fault) : Prop :=
  ∃ e e' e₀ past x, a = klRegime e ∧ a' = klRegime e' ∧ Fresh e₀ ∧ InStep e₀ past e ∧
    e.sample? (.update event) = some x ∧ InStep e₀ (past.fold e₀.referenceSize x) e' ∧
      e'.evaluate = .error fault

/-! ## Soundness -/

variable {a : Alpha} {event : MarketEvent}

/-- An estimator is sound when it comes from a fresh one. -/
theorem sound_iff : a.Sound ↔ ∃ fresh, GrownFrom fresh a := by
  constructor
  · intro hs
    cases a with
    | garch e => exact ⟨_, .garch rfl⟩
    | ofi e => exact ⟨_, .ofi rfl⟩
    | klRegime e =>
        obtain ⟨e₀, past, hf, hin⟩ := hs
        exact ⟨_, .klRegime hf hin⟩
  · rintro ⟨fresh, hg⟩
    cases hg with
    | garch _ => trivial
    | klRegime hf hin => exact ⟨_, _, hf, hin⟩
    | ofi _ => trivial

/-- A new estimator is sound. -/
theorem sound_of_build {config : AlphaConfig} (hb : config.build = .ok a) : a.Sound :=
  sound_iff.mpr ⟨a, grownFrom_of_build hb⟩

theorem closed_sound : Closed Sound where
  update := fun hs event =>
    have ⟨fresh, hg⟩ := sound_iff.mp hs
    sound_iff.mpr ⟨fresh, hg.update event⟩
  reset := fun hs =>
    have ⟨fresh, hg⟩ := sound_iff.mp hs
    sound_iff.mpr ⟨fresh, (closed_grownFrom fresh).reset hg⟩
  rebase := fun hs =>
    have ⟨fresh, hg⟩ := sound_iff.mp hs
    sound_iff.mpr ⟨fresh, hg.rebase⟩
  installReference := fun hs counts =>
    have ⟨fresh, hg⟩ := sound_iff.mp hs
    sound_iff.mpr ⟨fresh, hg.installReference counts⟩

/-! ## Failed updates -/

theorem settle_error {β ε : Type} {embed : ε → Alpha} {old : ε} {x : Except EngineError (β × ε)}
    {fault : Fault} {a' : Alpha} (h : settle embed old x = (.error fault, a')) :
    a' = embed old ∧ ∃ error, fault = .refused error := by
  cases x with
  | ok p => cases h
  | error error =>
      cases h
      exact ⟨rfl, error, rfl⟩

/-- A failed update changes nothing and is refused, or a test has failed.  A test
that was refused disables the detector. -/
theorem update_error (hs : a.Sound) {fault : Fault} {a' : Alpha}
    (hu : a.update event = (.error fault, a')) :
    (a' = a ∧ ∃ error, fault = .refused error) ∨
      (a.TestFails event ∧ a.TestFailed event a' fault ∧
        ((∃ error, fault = .refused error) → a'.isDisabled = true)) := by
  cases a with
  | garch e => exact .inl (settle_error hu)
  | ofi e => exact .inl (settle_error hu)
  | klRegime e =>
      obtain ⟨e₀, past, hf, hin⟩ := hs
      have hmap : (e.update event).map id klRegime = (.error fault, a') := hu
      rcases hin.update hf event with ⟨_, ⟨error, heq⟩ | ⟨pending, heq⟩⟩ |
        ⟨x, pending, e', o, hx, hin', _, _, hc, heq⟩
      · rw [heq] at hmap
        cases hmap
        exact .inl ⟨rfl, error, rfl⟩
      · rw [heq] at hmap
        cases hmap
      · have hfails : (klRegime e).TestFails event := by
          refine ⟨⟨x, hx⟩, fault, ?_⟩
          have hfst := congrArg Prod.fst hmap
          exact hfst
        rw [heq] at hmap
        refine .inr ⟨hfails, ?_⟩
        cases hc with
        | warming short => cases hmap
        | tested result full evaluated => cases hmap
        | refused error evaluated =>
            cases hmap
            have hin'' := hin'.congr true e'.returns rfl
            exact ⟨⟨e, _, e₀, past, x, rfl, rfl, hf, hin, hx, hin'', evaluated⟩, fun _ => rfl⟩
        | panicked panic evaluated =>
            cases hmap
            exact ⟨⟨e, _, e₀, past, x, rfl, rfl, hf, hin, hx, hin', evaluated⟩,
              fun ⟨_, h⟩ => by cases h⟩

theorem rebase_error {fault : Fault} {a' : Alpha} (hr : a.rebase = (.error fault, a')) :
    a' = a ∧ ∃ error, fault = .refused error := by
  cases a with
  | garch e =>
      cases hr
      exact ⟨rfl, _, rfl⟩
  | ofi e =>
      cases hr
      exact ⟨rfl, _, rfl⟩
  | klRegime e => exact settle_error hr

theorem installReference_error {counts : List Nat} {fault : Fault} {a' : Alpha}
    (hi : a.installReference counts = (.error fault, a')) :
    a' = a ∧ ∃ error, fault = .refused error := by
  cases a with
  | garch e =>
      cases hi
      exact ⟨rfl, _, rfl⟩
  | ofi e =>
      cases hi
      exact ⟨rfl, _, rfl⟩
  | klRegime e => exact settle_error hi

/-! ## Disabled estimators -/

theorem update_of_isDisabled (hd : a.isDisabled = true) (event : MarketEvent) :
    ∃ error, a.update event = (.error (.refused error), a) := by
  cases a with
  | garch e => cases hd
  | ofi e => cases hd
  | klRegime e =>
      have hupdate : e.update event = (.error (.refused Regime.Estimator.disabledError), e) :=
        if_pos hd
      refine ⟨Regime.Estimator.disabledError, ?_⟩
      show (e.update event).map id klRegime = _
      rw [hupdate]
      rfl

theorem rebase_of_isDisabled (hd : a.isDisabled = true) :
    ∃ error, a.rebase = (.error (.refused error), a) := by
  cases a with
  | garch e => cases hd
  | ofi e => cases hd
  | klRegime e =>
      have hrebase : e.rebase = .error Regime.Estimator.disabledError := if_pos hd
      refine ⟨Regime.Estimator.disabledError, ?_⟩
      show settle klRegime e (e.rebase.map ((), ·)) = _
      rw [hrebase]
      rfl

theorem installReference_of_isDisabled (hd : a.isDisabled = true) (counts : List Nat) :
    ∃ error, a.installReference counts = (.error (.refused error), a) := by
  cases a with
  | garch e => cases hd
  | ofi e => cases hd
  | klRegime e =>
      have hinstall : e.installReference counts = .error Regime.Estimator.disabledError :=
        if_pos hd
      refine ⟨Regime.Estimator.disabledError, ?_⟩
      show settle klRegime e ((e.installReference counts).map ((), ·)) = _
      rw [hinstall]
      rfl

/-- A reset ends it. -/
theorem isDisabled_reset (a : Alpha) : a.reset.isDisabled = false := by
  cases a <;> rfl

end MarketSignals.Alpha
