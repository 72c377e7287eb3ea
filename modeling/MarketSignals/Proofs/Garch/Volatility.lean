import MarketSignals.Proofs.Float.SquareRoot
import MarketSignals.Proofs.Garch.Variance

/-!
# The variance stays a variance

A variance starts out finite and not negative, and stays so, whatever is fed, refused or
reset in between: so its square root is a volatility in every state.  The first return that
is folded in lifts it to the constant at least, where it stays until a reset, and from then
on the next variance is finite too.

An event that only seeds the price folds no return in.

## Main definitions

* `State.Sound` — a variance with a square root, and a finite return.
* `State.Lifted` — what a folded return leaves.
* `Estimator.Folds` — a call that folds a return in.

## Main results

* `State.Lifted.of_feed` — one return.
* `Estimator.GrownFrom.lifted_of_folds`, `Estimator.GrownFrom.lifted_perform` — one call.
* `run_variance` — every run of accepted settings.
-/

namespace MarketSignals.Garch

open Rounding (value le_iff_value lt_iff_value not_lt_zero_iff not_le_zero_iff between_sqrt)

variable {p : Params Float} {v : Float}

/-! ## States -/

namespace State

variable {s s' : State Float}

/-- A variance that is finite and not negative, and a finite return. -/
structure Sound (s : State Float) : Prop where
  variance_finite : s.variance.isFinite = true
  variance_nonneg : ¬s.variance < 0
  pending_finite : s.pending.isFinite = true

/-- What a folded return leaves: the variance is at least the constant, and the next one is
finite. -/
structure Lifted (p : Params Float) (s : State Float) : Prop where
  omega_le : p.omega ≤ s.variance
  next_finite : (s.next p).isFinite = true

theorem Reached.sound (hs : s.Reached p v) (hp : p.Accepted) (hv : v.isFinite = true)
    (hnonneg : ¬v < 0) : s.Sound := by
  obtain ⟨hfinite, hvariance, hpending⟩ :=
    hs.variance hp hv ((not_lt_zero_iff hv).mp hnonneg)
  exact ⟨hfinite, (not_lt_zero_iff hfinite).mpr hvariance, hpending⟩

/-- The square root of a variance is a number. -/
theorem Sound.sqrt_finite (h : s.Sound) :
    s.variance.sqrt.isFinite = true ∧ s.variance.sqrt.isNaN = false := by
  have hroot := between_sqrt h.variance_finite
    ((not_lt_zero_iff h.variance_finite).mp h.variance_nonneg)
  exact ⟨hroot.finite, (Rounding.RoundsTo.self hroot.finite).not_nan⟩

/-- A folded return lifts the variance, and the next one was looked at. -/
theorem Lifted.of_feed (hp : p.Accepted) (hs : s.Sound) {ret : Float}
    (h : s.feed p ret = .ok s') : s'.Lifted p := by
  obtain ⟨-, hnext, hahead, rfl⟩ := feed_eq_ok_iff.mp h
  have hvariance := (not_lt_zero_iff hs.variance_finite).mp hs.variance_nonneg
  exact ⟨(le_iff_value hp.omega_finite hnext).mpr (omega_le_step hp hvariance hnext), hahead⟩

end State

/-! ## Estimators -/

namespace Estimator

variable {e e' : Estimator} {input : ReturnInput}

/-- A call that folds a return in: an accepted return, or an accepted event other than one
that seeds the price. -/
def Folds (e : Estimator) : Call → Prop
  | .feed ret => ∃ e', e.feed ret = .ok e'
  | .update event => ∃ reading e', e.update event = .ok (reading, e') ∧ reading.status = .ready
  | .reset => False

/-- The state after a call that folds a return in. -/
theorem Folds.state_eq {c : Call} (h : e.Folds c) :
    ∃ ret, e.state.feed e.params ret = .ok (e.perform c).state := by
  cases c with
  | feed ret =>
      obtain ⟨e', hfeed⟩ := h
      rw [perform_of_answer (c := .feed ret) hfeed]
      obtain ⟨state, hstate, rfl⟩ := feed_eq_ok_iff.mp hfeed
      exact ⟨ret, hstate⟩
  | update event =>
      obtain ⟨reading, e', hupdate, hready⟩ := h
      rw [perform_of_answer (answer_update hupdate)]
      rcases (reading_of_update hupdate).2 with ⟨hseeding, -⟩ | ⟨-, hfed⟩
      · rw [hready] at hseeding
        cases hseeding
      · exact hfed
  | reset => exact h.elim

/-- Any call but a reset keeps the state or folds a return in. -/
theorem state_perform {c : Call} (hc : c ≠ .reset) :
    (e.perform c).state = e.state ∨ e.Folds c := by
  cases hanswer : e.answer c with
  | error error => exact .inl (congrArg Estimator.state (perform_of_error hanswer))
  | ok e' =>
      rw [perform_of_answer hanswer]
      cases c with
      | feed ret => exact .inr ⟨e', hanswer⟩
      | update event =>
          obtain ⟨⟨reading, e₁⟩, hupdate, rfl⟩ := map_eq_ok_iff.mp hanswer
          rcases (reading_of_update hupdate).2 with ⟨-, hstate⟩ | ⟨hready, -⟩
          · exact .inl hstate
          · exact .inr ⟨reading, e₁, hupdate, hready⟩
      | reset => exact absurd rfl hc

namespace GrownFrom

theorem sound (h : GrownFrom p v input e) (hp : p.Accepted) (hv : v.isFinite = true)
    (hnonneg : ¬v < 0) : e.state.Sound := h.reached.sound hp hv hnonneg

theorem lifted_of_folds (h : GrownFrom p v input e) (hp : p.Accepted) (hv : v.isFinite = true)
    (hnonneg : ¬v < 0) {c : Call} (hc : e.Folds c) : (e.perform c).state.Lifted p := by
  obtain ⟨ret, hfeed⟩ := hc.state_eq
  rw [h.params] at hfeed
  exact .of_feed hp (h.sound hp hv hnonneg) hfeed

theorem lifted_perform (h : GrownFrom p v input e) (hp : p.Accepted) (hv : v.isFinite = true)
    (hnonneg : ¬v < 0) (hlifted : e.state.Lifted p) {c : Call} (hc : c ≠ .reset) :
    (e.perform c).state.Lifted p := by
  rcases state_perform hc with hstate | hfolds
  · rwa [hstate]
  · exact h.lifted_of_folds hp hv hnonneg hfolds

/-- Until a reset the variance stays lifted. -/
theorem lifted_run (h : GrownFrom p v input e) (hp : p.Accepted) (hv : v.isFinite = true)
    (hnonneg : ¬v < 0) (hlifted : e.state.Lifted p) {calls : List Call}
    (hcalls : .reset ∉ calls) : (e.run calls).state.Lifted p := by
  induction calls generalizing e with
  | nil => exact hlifted
  | cons c calls ih =>
      obtain ⟨hc, hrest⟩ := not_or.mp (mt List.mem_cons.mpr hcalls)
      exact ih (h.perform c) (h.lifted_perform hp hv hnonneg hlifted (Ne.symm hc)) hrest

end GrownFrom

theorem run_append (e : Estimator) (before after : List Call) :
    e.run (before ++ after) = (e.run before).run after := List.foldl_append

end Estimator

/-! ## Runs -/

/-- In every state that accepted settings come to, the variance is finite and not negative
and the stored return finite, and every volatility that is given is a number.  Once a return
was folded in, and until the next reset, the variance is at least the constant, which is
positive, and the next variance is finite. -/
theorem run_variance {c : Config} {p : Params Float} (hc : c.params = .ok p) :
    ∃ e₀, Estimator.build c = .ok e₀ ∧
      (∀ calls, (e₀.run calls).state.Sound ∧
        ((e₀.run calls).volatility.isFinite = true ∧ (e₀.run calls).volatility.isNaN = false) ∧
        (∀ ret e, (e₀.run calls).feed ret = .ok e →
          e.volatility.isFinite = true ∧ e.volatility.isNaN = false) ∧
        ∀ event reading e, (e₀.run calls).update event = .ok (reading, e) →
          reading.value.isFinite = true ∧ reading.value.isNaN = false) ∧
      ∀ before call after, (e₀.run before).Folds call → .reset ∉ after →
        0 < c.omega ∧ (e₀.run (before ++ call :: after)).state.Lifted p := by
  obtain ⟨hp, haccepted, hinitial, hnonneg⟩ := Config.params_eq_ok_iff.mp hc
  have hgrown := Estimator.grownFrom_run p c.initialVariance c.input
  refine ⟨_, Estimator.build_eq_ok hc, ?_, ?_⟩
  · intro calls
    have hsound := (hgrown calls).sound haccepted hinitial hnonneg
    refine ⟨hsound, hsound.sqrt_finite, ?_, ?_⟩
    · intro ret e hfeed
      have hfed := (hgrown calls).answer (c := .feed ret) hfeed
      exact (hfed.sound haccepted hinitial hnonneg).sqrt_finite
    · intro event reading e hupdate
      have hupdated := (hgrown calls).answer (Estimator.answer_update hupdate)
      rw [(Estimator.reading_of_update hupdate).1]
      exact (hupdated.sound haccepted hinitial hnonneg).sqrt_finite
  · intro before call after hfolds hafter
    have homega : 0 < p.omega :=
      (lt_iff_value rfl haccepted.omega_finite).mpr
        (Rounding.value_zero.trans_lt haccepted.omega_value_pos)
    have hlifted := (hgrown before).lifted_of_folds haccepted hinitial hnonneg hfolds
    rw [hp] at homega
    rw [Estimator.run_append]
    exact ⟨homega,
      ((hgrown before).perform call).lifted_run haccepted hinitial hnonneg hlifted hafter⟩

/-- Everyday settings: half a unit is folded in, and what is no number is refused. -/
theorem run_variance_everyday :
    everyday.params = .ok ⟨0.1, 0.1, 0.8⟩ ∧ ∃ e₀, Estimator.build everyday = .ok e₀ ∧
      (e₀.run []).Folds (.feed 0.5) ∧
      (e₀.run ([] ++ .feed 0.5 :: [.feed (0 / 0)])).state.Sound ∧
      (e₀.run ([] ++ .feed 0.5 :: [.feed (0 / 0)])).state.Lifted ⟨0.1, 0.1, 0.8⟩ := by
  obtain ⟨e₀, hbuild, hsound, hlifted⟩ := run_variance params_everyday
  obtain rfl : .start ⟨0.1, 0.1, 0.8⟩ 1 {} = e₀ :=
    Except.ok.inj ((Estimator.build_eq_ok params_everyday).symm.trans hbuild)
  have hfolds : (Estimator.start ⟨0.1, 0.1, 0.8⟩ 1 {}).Folds (.feed 0.5) :=
    ⟨_, Estimator.feed_eq_ok_iff.mpr
      ⟨_, State.feed_eq_ok_iff.mpr ⟨rfl, by decide +kernel, by decide +kernel, rfl⟩, rfl⟩⟩
  exact ⟨params_everyday, _, hbuild, hfolds, (hsound _).1,
    (hlifted [] (.feed 0.5) [.feed (0 / 0)] hfolds (by simp)).2⟩

end MarketSignals.Garch
