import MarketSignals.Proofs.Alpha.Growth

/-!
# The states of a volatility estimator

What a check of parameters accepts, what a return does to the state, and which states come
about: the first one, and what an accepted return makes of one that came about before.  A
refused return and a refused event leave the state alone, and a reset goes back to the
first one.

## Main definitions

* `Params.Accepted` — what a check of parameters accepts.
* `State.Reached` — the states that come about.
* `Estimator.run` — an estimator after a list of calls.
* `Estimator.noting` — an estimator that has seen a price.

## Main results

* `State.feed_eq_ok_iff`, `Estimator.feed_eq_invariant_iff` — when a return is accepted, and
  when it is refused as a broken invariant.
* `Estimator.update_eq`, `Estimator.reading_of_update` — what an event does.
* `State.Reached.start_or_finite` — the look-ahead holds in every state but the first.
* `Estimator.grownFrom_run` — what is reached by calls.
-/

namespace MarketSignals.Garch

section

variable {α : Type} [Scalar α]

/-! ## Accepted parameters -/

/-- Finite parameters with a positive constant, and weights that are not negative and sum to
less than one. -/
structure Params.Accepted (p : Params α) : Prop where
  omega_finite : Scalar.isFinite p.omega = true
  alpha_finite : Scalar.isFinite p.alpha = true
  beta_finite : Scalar.isFinite p.beta = true
  omega_pos : ¬p.omega ≤ 0
  alpha_nonneg : ¬p.alpha < 0
  beta_nonneg : ¬p.beta < 0
  stationary : ¬1 ≤ p.alpha + p.beta

theorem Params.check_eq_ok_iff {omega alpha beta : α} {p : Params α} :
    Params.check omega alpha beta = .ok p ↔ p = ⟨omega, alpha, beta⟩ ∧ p.Accepted := by
  unfold check
  constructor
  · intro h
    split at h
    · cases h
    next hfinite =>
    split at h
    · cases h
    next homega =>
    split at h
    · cases h
    next hweights =>
    split at h
    · cases h
    next hsum =>
    cases h
    simp only [Bool.not_eq_true', Bool.not_eq_false, Bool.and_eq_true] at hfinite
    rw [not_or] at hweights
    exact ⟨rfl, hfinite.1.1, hfinite.1.2, hfinite.2, homega, hweights.1, hweights.2, hsum⟩
  · rintro ⟨rfl, h⟩
    rw [if_neg, if_neg h.omega_pos, if_neg (not_or.mpr ⟨h.alpha_nonneg, h.beta_nonneg⟩),
      if_neg h.stationary]
    rw [h.omega_finite, h.alpha_finite, h.beta_finite]
    exact Bool.false_ne_true

/-! ## States -/

variable {p : Params α} {s s' : State α} {v : α}

namespace State

/-- A return is accepted when it, the next variance and the one after that are finite. -/
theorem feed_eq_ok_iff {ret : α} :
    s.feed p ret = .ok s' ↔
      Scalar.isFinite ret = true ∧ Scalar.isFinite (s.next p) = true ∧
        Scalar.isFinite (p.step (s.next p) ret) = true ∧ s' = ⟨s.next p, ret⟩ := by
  unfold feed
  cases hret : Scalar.isFinite ret
  · simp
  cases hnext : Scalar.isFinite (s.next p)
  · simp [hnext]
  cases hahead : Scalar.isFinite (p.step (s.next p) ret)
  · simp [hnext, hahead]
  · simp [hnext, hahead, eq_comm]

/-- A finite return is refused for the state alone when the next variance is not finite. -/
theorem feed_eq_varianceOverflow_iff {ret : α} {t : State α} :
    s.feed p ret = .error (.varianceOverflow t) ↔
      Scalar.isFinite ret = true ∧ Scalar.isFinite (s.next p) = false ∧ t = s := by
  unfold feed
  cases hret : Scalar.isFinite ret
  · simp
  cases hnext : Scalar.isFinite (s.next p)
  · simp [hnext, eq_comm]
  cases hahead : Scalar.isFinite (p.step (s.next p) ret)
  · simp [hnext, hahead]
  · simp [hnext, hahead]

/-- The states that come about from a first variance. -/
inductive Reached (p : Params α) (v : α) : State α → Prop
  | start : Reached p v (State.start v)
  | feed {s s' : State α} {ret : α} (hs : Reached p v s) (h : s.feed p ret = .ok s') :
      Reached p v s'

/-- The variance after the next is finite in every state but the first: it was looked at
when the return was accepted. -/
theorem Reached.start_or_finite (h : Reached p v s) :
    s = State.start v ∨ Scalar.isFinite (s.next p) = true := by
  cases h with
  | start => exact .inl rfl
  | feed hs hfeed =>
      obtain ⟨_, _, hahead, rfl⟩ := feed_eq_ok_iff.mp hfeed
      exact .inr hahead

end State

end

/-! ## Estimators -/

/-- A call on an estimator. -/
inductive Call where
  | feed (ret : Float)
  | update (event : MarketEvent)
  | reset

namespace Estimator

/-- The estimator that a call makes, unless it is refused. -/
def answer (e : Estimator) : Call → Except EngineError Estimator
  | .feed ret => e.feed ret
  | .update event => (e.update event).map Prod.snd
  | .reset => .ok e.reset

/-- The estimator after a call. -/
def perform (e : Estimator) (c : Call) : Estimator :=
  match e.answer c with
  | .ok e' => e'
  | .error _ => e

/-- The estimator after a list of calls. -/
def run (e : Estimator) (calls : List Call) : Estimator := calls.foldl perform e

variable {e e' : Estimator}

theorem perform_of_answer {c : Call} (h : e.answer c = .ok e') : e.perform c = e' := by
  unfold perform
  rw [h]

theorem perform_of_error {c : Call} {error : EngineError} (h : e.answer c = .error error) :
    e.perform c = e := by
  unfold perform
  rw [h]

theorem answer_update {event : MarketEvent} {reading : SignalReading}
    (hu : e.update event = .ok (reading, e')) : e.answer (.update event) = .ok e' :=
  map_eq_ok_iff.mpr ⟨_, hu, rfl⟩

theorem answer_update_error {event : MarketEvent} {error : EngineError}
    (hu : e.update event = .error error) : e.answer (.update event) = .error error := by
  unfold answer
  dsimp only
  rw [hu]
  rfl

/-- A return is fed to the recurrence. -/
theorem feed_eq_ok_iff {ret : Float} :
    e.feed ret = .ok e' ↔
      ∃ state, e.state.feed e.params ret = .ok state ∧
        e' = { e with state, lastReturn := some ret } := by
  unfold feed
  rw [bind_eq_ok_iff]
  constructor
  · rintro ⟨state, hstate, he⟩
    exact ⟨state, mapError_eq_ok_iff.mp hstate, (Except.ok.inj he).symm⟩
  · rintro ⟨state, hstate, rfl⟩
    exact ⟨state, mapError_eq_ok_iff.mpr hstate, rfl⟩

/-- A return is refused as a broken invariant when it is finite and the next variance is
not. -/
theorem feed_eq_invariant_iff {ret : Float} :
    (∃ what, e.feed ret = .error (.invariant what)) ↔
      ret.isFinite = true ∧ (e.state.next e.params).isFinite = false := by
  unfold feed
  simp only [bind_eq_error_iff, mapError_eq_error_iff, reduceCtorEq, and_false, exists_false,
    or_false]
  constructor
  · rintro ⟨what, fault, hfeed, hwhat⟩
    cases fault with
    | varianceOverflow t =>
        obtain ⟨hret, hnext, _⟩ := State.feed_eq_varianceOverflow_iff.mp hfeed
        exact ⟨hret, hnext⟩
    | _ => cases hwhat
  · rintro ⟨hret, hnext⟩
    exact ⟨_, _, State.feed_eq_varianceOverflow_iff.mpr ⟨hret, hnext, rfl⟩, rfl⟩

/-- A return is refused as invalid input, or as a broken invariant. -/
theorem feed_error {ret : Float} {error : EngineError} (h : e.feed ret = .error error) :
    ∃ what, error = .invalidInput what ∨ error = .invariant what := by
  unfold feed at h
  rw [bind_eq_error_iff] at h
  rcases h with h | ⟨state, -, h⟩
  · obtain ⟨fault, -, rfl⟩ := mapError_eq_error_iff.mp h
    cases fault with
    | varianceOverflow t => exact ⟨_, .inr rfl⟩
    | _ => exact ⟨_, .inl rfl⟩
  · cases h

/-- The estimator with a price to compare the next one with. -/
def noting (e : Estimator) (price : Float) : Estimator :=
  { e with returns := { e.returns with lastPrice := some price } }

/-- The first price is noted, and the return from the last price to any other is fed before
the price is noted. -/
theorem update_eq {event : MarketEvent} {price : Float}
    (hprice : e.returns.input.priceOf event = .ok price) :
    e.update event =
      match e.returns.lastPrice with
      | none => .ok (⟨e.volatility, .insufficientData 1 2, e.detail⟩, e.noting price)
      | some previous => (e.feed (e.returns.input.compute previous price)).map fun fed =>
          (⟨fed.volatility, .ready, fed.detail⟩, fed.noting price) := by
  unfold update ReturnTracker.peek
  rw [hprice]
  cases hlast : e.returns.lastPrice with
  | none => rfl
  | some previous =>
      show (e.feed (e.returns.input.compute previous price) >>= _) =
        (e.feed (e.returns.input.compute previous price)).map _
      unfold feed
      cases e.state.feed e.params (e.returns.input.compute previous price) <;> rfl

/-- An update keeps the state or feeds a return, and reads the volatility that comes of it. -/
theorem reading_of_update {event : MarketEvent} {reading : SignalReading}
    (hu : e.update event = .ok (reading, e')) :
    reading.value = e'.volatility ∧
      (reading.status = .insufficientData 1 2 ∧ e'.state = e.state ∨
        reading.status = .ready ∧ ∃ ret, e.state.feed e.params ret = .ok e'.state) := by
  obtain ⟨pending, hpeek, -⟩ := bind_eq_ok_iff.mp hu
  obtain ⟨price, hprice, -⟩ := bind_eq_ok_iff.mp (mapError_eq_ok_iff.mp hpeek)
  rw [update_eq hprice] at hu
  cases hlast : e.returns.lastPrice with
  | none =>
      rw [hlast] at hu
      cases hu
      exact ⟨rfl, .inl ⟨rfl, rfl⟩⟩
  | some previous =>
      rw [hlast] at hu
      obtain ⟨fed, hfed, hmade⟩ := map_eq_ok_iff.mp hu
      obtain ⟨state, hstate, rfl⟩ := feed_eq_ok_iff.mp hfed
      cases hmade
      exact ⟨rfl, .inr ⟨rfl, _, hstate⟩⟩

variable {p : Params Float} {v : Float} {input : ReturnInput}

/-- An estimator with the settings of a fresh one, in a state that comes about. -/
structure GrownFrom (p : Params Float) (v : Float) (input : ReturnInput) (e : Estimator) :
    Prop where
  settings : e.reset = start p v input
  reached : e.state.Reached p v

namespace GrownFrom

theorem params (h : GrownFrom p v input e) : e.params = p := congrArg Estimator.params h.settings

theorem start (p : Params Float) (v : Float) (input : ReturnInput) :
    GrownFrom p v input (start p v input) := ⟨rfl, .start⟩

theorem answer (h : GrownFrom p v input e) {c : Call} (hanswer : e.answer c = .ok e') :
    GrownFrom p v input e' := by
  cases c with
  | feed ret =>
      obtain ⟨state, hstate, rfl⟩ := feed_eq_ok_iff.mp hanswer
      rw [h.params] at hstate
      exact ⟨h.settings, h.reached.feed hstate⟩
  | update event =>
      obtain ⟨⟨reading, e₁⟩, hu, rfl⟩ := map_eq_ok_iff.mp hanswer
      refine ⟨(reset_of_update hu).trans h.settings, ?_⟩
      rcases (reading_of_update hu).2 with ⟨-, hstate⟩ | ⟨-, ret, hstate⟩
      · rw [hstate]
        exact h.reached
      · rw [h.params] at hstate
        exact h.reached.feed hstate
  | reset =>
      cases hanswer
      rw [h.settings]
      exact .start p v input

theorem perform (h : GrownFrom p v input e) (c : Call) : GrownFrom p v input (e.perform c) := by
  cases hanswer : e.answer c with
  | error error => rwa [perform_of_error hanswer]
  | ok e' =>
      rw [perform_of_answer hanswer]
      exact h.answer hanswer

end GrownFrom

/-- What is reached by calls. -/
theorem grownFrom_run (p : Params Float) (v : Float) (input : ReturnInput) (calls : List Call) :
    GrownFrom p v input ((start p v input).run calls) := by
  unfold run
  induction calls using List.reverseRecOn with
  | nil => exact .start p v input
  | append_singleton calls c ih =>
      rw [List.foldl_append]
      exact ih.perform c

end Estimator

/-! ## Accepted settings -/

/-- Settings are accepted with accepted parameters and a first variance that is finite and
not negative. -/
theorem Config.params_eq_ok_iff {c : Config} {p : Params Float} :
    c.params = .ok p ↔
      p = ⟨c.omega, c.alpha, c.beta⟩ ∧ p.Accepted ∧ c.initialVariance.isFinite = true ∧
        ¬c.initialVariance < 0 := by
  unfold Config.params
  rw [bind_eq_ok_iff]
  simp only [mapError_eq_ok_iff, Params.check_eq_ok_iff]
  constructor
  · rintro ⟨q, ⟨rfl, hq⟩, h⟩
    split at h
    · cases h
    next hinitial =>
    cases h
    simp only [Bool.or_eq_true, Bool.not_eq_true', decide_eq_true_eq, not_or,
      Bool.not_eq_false] at hinitial
    exact ⟨rfl, hq, hinitial.1, hinitial.2⟩
  · rintro ⟨rfl, hq, hfinite, hnonneg⟩
    refine ⟨_, ⟨rfl, hq⟩, if_neg ?_⟩
    simp only [hfinite, Bool.not_true, Bool.false_or, decide_eq_true_eq]
    exact hnonneg

theorem Estimator.build_eq_ok {c : Config} {p : Params Float} (hc : c.params = .ok p) :
    build c = .ok (start p c.initialVariance c.input) := by
  rw [build_eq, hc]
  rfl

/-! ### Everyday settings -/

/-- Settings with a long-run variance of one. -/
def everyday : Config where
  omega := 0.1
  alpha := 0.1
  beta := 0.8
  initialVariance := 1

theorem params_everyday : everyday.params = .ok ⟨0.1, 0.1, 0.8⟩ :=
  Config.params_eq_ok_iff.mpr ⟨rfl, ⟨by decide, by decide, by decide, by decide, by decide,
    by decide, by decide⟩, by decide, by decide⟩

end MarketSignals.Garch
