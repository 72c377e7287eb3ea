import MarketSignals.Proofs.Float.Arithmetic
import MarketSignals.Proofs.Alpha.Growth

/-!
# Whether order-flow readings are finite

A top of book is accepted when the step, the cumulative flow and the traded volume are
finite.  The two figures that are divided out afterwards are not looked at.  They are never
undefined, and they are finite exactly if the divisor is not so small that the flow cannot
be divided by it.

## Main definitions

* `Flow.Sound` — the figures that are looked at are finite.
* `Estimator.Reported` — a reading, and which of its figures are finite.

## Main results

* `Flow.Sound.fold` — what is accepted stays sound.
* `run_reported` — every reading of every run.
-/

namespace MarketSignals.OrderFlow

open Rounding (value overflowPoint roundsTo_div abs_value_lt lt_iff_value le_iff_value value_zero
  value_one)

/-! ## States -/

/-- The step, the cumulative flow and the volume are finite. -/
structure Flow.Sound (f : Flow Float) : Prop where
  step : f.lastStep.isFinite = true
  cumulative : f.cumulative.value.isFinite = true
  volume : f.volume.isFinite = true

namespace Flow

variable {f f' : Flow Float} {policy : ResetPolicy Float}

theorem sound_start : Flow.Sound .start := ⟨rfl, rfl, rfl⟩

/-- What is accepted is sound: a top of book that seeds the state adds nothing to the flow,
and any other one is looked at. -/
theorem Sound.fold (hf : f.Sound) {top : BookTop Float} {traded : Float}
    (h : f.fold policy top traded = .ok f') : f'.Sound := by
  unfold Flow.fold at h
  dsimp only at h
  split at h
  · cases h
  next hvolume =>
  rw [Bool.not_eq_true', Bool.not_eq_false] at hvolume
  split at h
  · cases h
    exact ⟨(rfl : Float.isFinite 0 = true), hf.cumulative, hvolume⟩
  split at h
  · cases h
  next hstep =>
  split at h
  · cases h
  next hsum =>
  cases h
  rw [Bool.not_eq_true', Bool.not_eq_false] at hstep hsum
  exact ⟨hstep, hsum, hvolume⟩

theorem Sound.observeBook (hf : f.Sound) {top : BookTop Float}
    (h : f.observeBook policy top = .ok f') : f'.Sound := by
  obtain ⟨-, -, hfold⟩ := bind_eq_ok_iff.mp h
  exact hf.fold hfold

theorem Sound.observeTrade (hf : f.Sound) {top : BookTop Float} {trade : Option Float}
    (h : f.observeTrade policy top trade = .ok f') : f'.Sound := by
  obtain ⟨-, -, h⟩ := bind_eq_ok_iff.mp h
  cases trade with
  | none => exact hf.fold h
  | some size =>
      dsimp only at h
      split at h
      · exact hf.fold h
      · cases h

end Flow

/-! ## Calls -/

/-- A call on an estimator. -/
inductive Call where
  | update (event : MarketEvent)
  | updateBook (top : BookTop Float)
  | updateSizes (bidSize askSize : Float)
  | reset

namespace Estimator

/-- The reading that a call gives, if it gives one, and the estimator it makes, unless it is
refused. -/
def answer (e : Estimator) : Call → Except EngineError (Option SignalReading × Estimator)
  | .update event => (e.update event).map (Prod.map some id)
  | .updateBook top => (e.updateBook top).map (Prod.map some id)
  | .updateSizes bidSize askSize => (e.updateSizes bidSize askSize).map (Prod.map some id)
  | .reset => .ok (none, e.reset)

/-- The estimator after a call. -/
def perform (e : Estimator) (c : Call) : Estimator :=
  match e.answer c with
  | .ok (_, e') => e'
  | .error _ => e

/-- The estimator after a list of calls. -/
def run (e : Estimator) (calls : List Call) : Estimator := calls.foldl perform e

variable {e e' : Estimator} {reading : SignalReading}

/-- A reading is made from the new state. -/
theorem advance_eq_ok {result : Except (FlowFault Float) (Flow Float)}
    (h : e.advance result = .ok (reading, e')) :
    ∃ flow, result = .ok flow ∧ e' = { e with flow } ∧ reading.value = e'.signal ∧
      reading.detail = e'.detail := by
  obtain ⟨flow, hflow, h⟩ := bind_eq_ok_iff.mp h
  cases h
  exact ⟨flow, mapError_eq_ok_iff.mp hflow, rfl, rfl, rfl⟩

/-- A call gives a reading of a new state that was accepted, or it is a reset. -/
theorem answer_cases {c : Call} {given : Option SignalReading} (hf : e.flow.Sound)
    (h : e.answer c = .ok (given, e')) :
    given = none ∧ e' = e.reset ∨
      ∃ reading flow, given = some reading ∧ e' = { e with flow } ∧ flow.Sound ∧
        reading.value = e'.signal ∧ reading.detail = e'.detail := by
  have hadvance : ∀ {result : Except (FlowFault Float) (Flow Float)},
      (∀ flow, result = .ok flow → flow.Sound) →
      (e.advance result).map (Prod.map some id) = .ok (given, e') →
      ∃ reading flow, given = some reading ∧ e' = { e with flow } ∧ flow.Sound ∧
        reading.value = e'.signal ∧ reading.detail = e'.detail := by
    intro result hsound h
    obtain ⟨⟨reading, e₁⟩, hadvance, hpair⟩ := map_eq_ok_iff.mp h
    obtain ⟨flow, hflow, rfl, hvalue, hdetail⟩ := advance_eq_ok hadvance
    cases hpair
    exact ⟨reading, flow, rfl, rfl, hsound flow hflow, hvalue, hdetail⟩
  cases c with
  | update event => exact .inr (hadvance (fun _ => hf.observeTrade) h)
  | updateBook top => exact .inr (hadvance (fun _ => hf.observeBook) h)
  | updateSizes bidSize askSize => exact .inr (hadvance (fun _ => hf.observeBook) h)
  | reset =>
      cases h
      exact .inl ⟨rfl, rfl⟩

/-- An estimator with the settings of a fresh one, in a sound state. -/
structure GrownFrom (marketCap : Float) (policy : ResetPolicy Float) (e : Estimator) : Prop where
  settings : e.reset = start marketCap policy
  sound : e.flow.Sound

variable {marketCap : Float} {policy : ResetPolicy Float}

namespace GrownFrom

theorem marketCap_eq (h : GrownFrom marketCap policy e) : e.marketCap = marketCap :=
  congrArg Estimator.marketCap h.settings

theorem start (marketCap : Float) (policy : ResetPolicy Float) :
    GrownFrom marketCap policy (start marketCap policy) := ⟨rfl, Flow.sound_start⟩

theorem answer (h : GrownFrom marketCap policy e) {c : Call} {given : Option SignalReading}
    (ha : e.answer c = .ok (given, e')) : GrownFrom marketCap policy e' := by
  rcases answer_cases h.sound ha with ⟨-, rfl⟩ | ⟨reading, flow, -, rfl, hflow, -, -⟩
  · rw [h.settings]
    exact .start marketCap policy
  · exact ⟨h.settings, hflow⟩

theorem perform (h : GrownFrom marketCap policy e) (c : Call) :
    GrownFrom marketCap policy (e.perform c) := by
  unfold Estimator.perform
  cases ha : e.answer c with
  | error error => exact h
  | ok made => exact h.answer ha

end GrownFrom

/-- What is reached by calls. -/
theorem grownFrom_run (marketCap : Float) (policy : ResetPolicy Float) (calls : List Call) :
    GrownFrom marketCap policy ((start marketCap policy).run calls) := by
  unfold run
  induction calls using List.reverseRecOn with
  | nil => exact .start marketCap policy
  | append_singleton calls c ih =>
      rw [List.foldl_append]
      exact ih.perform c

/-! ## Quotients -/

/-- The flow is divided by a positive number: the quotient is a number or an infinity, and
which of the two it is depends on the size of the exact quotient. -/
theorem quotient_finite_iff {x y : Float} (hx : x.isFinite = true) (hy : y.isFinite = true)
    (hpos : 0 < value y) :
    (x / y).isNaN = false ∧
      ((x / y).isFinite = true ↔ |value x| < overflowPoint * value y) := by
  have hquotient := roundsTo_div hx hy hpos.ne'
  refine ⟨hquotient.not_nan, ?_⟩
  rw [hquotient.finite_iff, abs_div, abs_of_pos hpos, div_lt_iff₀ hpos]

/-- A divisor of one or more leaves the flow in range. -/
theorem flow_lt_of_one_le {x : Float} (hx : x.isFinite = true) {q : ℚ} (hq : 1 ≤ q) :
    |value x| < overflowPoint * q :=
  (abs_value_lt hx).trans_le (le_mul_of_one_le_right Rounding.overflowPoint_pos.le hq)

/-- A reading, and which of its figures are finite: the step and the flow always, the value
and the flow per volume as far as their divisors allow. -/
structure Reported (e : Estimator) (reading : SignalReading) : Prop where
  value_eq : reading.value = e.signal
  detail_eq : reading.detail = .ofi e.flow.lastStep e.cumulative e.flow.volumeNormalized
  step_finite : e.flow.lastStep.isFinite = true
  cumulative_finite : e.cumulative.isFinite = true
  value_not_nan : e.signal.isNaN = false
  value_finite_iff : e.signal.isFinite = true ↔
    |value e.cumulative| < overflowPoint * value e.marketCap
  normalized_not_nan : e.flow.volumeNormalized.isNaN = false
  normalized_finite_iff : e.flow.volumeNormalized.isFinite = true ↔
    (0 < value e.flow.volume → |value e.cumulative| < overflowPoint * value e.flow.volume)

theorem reported (hf : e.flow.Sound) (hcap : e.marketCap.isFinite = true)
    (hpos : 0 < value e.marketCap) (hvalue : reading.value = e.signal)
    (hdetail : reading.detail = e.detail) : e.Reported reading := by
  obtain ⟨hvalueNaN, hvalueFinite⟩ := quotient_finite_iff hf.cumulative hcap hpos
  have hzero : (0 : Float).isFinite = true := rfl
  have hvolume : (0 : Float) < e.flow.volume ↔ 0 < value e.flow.volume := by
    rw [lt_iff_value hzero hf.volume, value_zero]
  have hnormalized : e.flow.volumeNormalized.isNaN = false ∧
      (e.flow.volumeNormalized.isFinite = true ↔
        (0 < value e.flow.volume →
          |value e.cumulative| < overflowPoint * value e.flow.volume)) := by
    show Float.isNaN (if (0 : Float) < e.flow.volume then _ else _) = false ∧
      (Float.isFinite (if (0 : Float) < e.flow.volume then _ else _) = true ↔ _)
    by_cases htraded : (0 : Float) < e.flow.volume
    · obtain ⟨hnan, hfinite⟩ :=
        quotient_finite_iff hf.cumulative hf.volume (hvolume.mp htraded)
      rw [if_pos htraded]
      exact ⟨hnan, hfinite.trans ⟨fun h _ => h, fun h => h (hvolume.mp htraded)⟩⟩
    · rw [if_neg htraded]
      exact ⟨(Rounding.RoundsTo.self hf.cumulative).not_nan,
        iff_of_true hf.cumulative fun h => absurd (hvolume.mpr h) htraded⟩
  exact ⟨hvalue, hdetail, hf.step, hf.cumulative, hvalueNaN, hvalueFinite, hnormalized.1,
    hnormalized.2⟩

end Estimator

/-! ## Runs -/

/-- Settings are accepted with a positive market capitalisation and an accepted policy. -/
theorem Config.validate_eq_ok_iff {c : Config} :
    c.validate = .ok () ↔
      c.marketCap.isFinite = true ∧ 0 < c.marketCap ∧ c.resetPolicy.validate = .ok () := by
  unfold Config.validate
  constructor
  · intro h
    split at h
    next hcap =>
      obtain ⟨hfinite, hpos⟩ := Bool.and_eq_true_iff.mp hcap
      exact ⟨hfinite, of_decide_eq_true hpos, h⟩
    · cases h
  · rintro ⟨hfinite, hpos, hpolicy⟩
    rw [if_pos (Bool.and_eq_true_iff.mpr ⟨hfinite, decide_eq_true hpos⟩), hpolicy]

theorem Estimator.build_eq_ok {c : Config} (hc : c.validate = .ok ()) :
    build c = .ok (start c.marketCap c.resetPolicy) := by
  unfold build
  rw [hc]
  rfl

/-- Every reading of every run of accepted settings. -/
theorem run_reported {c : Config} (hc : c.validate = .ok ()) :
    ∃ e₀, Estimator.build c = .ok e₀ ∧ ∀ calls call reading e,
      (e₀.run calls).answer call = .ok (some reading, e) →
        e.Reported reading ∧ e.marketCap = c.marketCap ∧
          (1 ≤ value c.marketCap → reading.value.isFinite = true) ∧
          (1 ≤ value e.flow.volume ∨ e.flow.volume = 0 →
            e.flow.volumeNormalized.isFinite = true) := by
  obtain ⟨hcap, hpos, -⟩ := Config.validate_eq_ok_iff.mp hc
  rw [lt_iff_value rfl hcap, value_zero] at hpos
  refine ⟨_, Estimator.build_eq_ok hc, ?_⟩
  intro calls call reading e hanswer
  have hgrown := Estimator.grownFrom_run c.marketCap c.resetPolicy calls
  have hcapEq := (hgrown.answer hanswer).marketCap_eq
  have hsound := (hgrown.answer hanswer).sound
  rcases Estimator.answer_cases hgrown.sound hanswer with
    ⟨hgiven, -⟩ | ⟨_, _, hgiven, -, -, hvalue, hdetail⟩
  · cases hgiven
  cases hgiven
  have hreported : e.Reported reading :=
    Estimator.reported hsound (hcapEq ▸ hcap) (hcapEq ▸ hpos) hvalue hdetail
  refine ⟨hreported, hcapEq, ?_, ?_⟩
  · intro hone
    rw [hvalue, hreported.value_finite_iff, hcapEq]
    exact Estimator.flow_lt_of_one_le hsound.cumulative hone
  · rintro (hone | hnone)
    · rw [hreported.normalized_finite_iff]
      exact fun _ => Estimator.flow_lt_of_one_le hsound.cumulative hone
    · rw [hreported.normalized_finite_iff, hnone, value_zero]
      exact fun h => absurd h (lt_irrefl 0)

/-- A reading that an answer can be looked through for. -/
theorem exists_reading (answer : Except EngineError (Option SignalReading × Estimator))
    (P : SignalReading → Bool) (h : (answer.toOption.bind Prod.fst).any P = true) :
    ∃ reading e, answer = .ok (some reading, e) ∧ P reading = true := by
  cases answer with
  | error error => cases h
  | ok made =>
      obtain ⟨given, e⟩ := made
      cases given with
      | none => cases h
      | some reading => exact ⟨reading, e, rfl, h⟩

/-- Ten more on the bid side over a market capitalisation of two. -/
theorem run_reported_two :
    let c : Config := { marketCap := 2 }
    c.validate = .ok () ∧ 1 ≤ value c.marketCap ∧
      ∃ e₀ reading e, Estimator.build c = .ok e₀ ∧
        (e₀.run [.updateSizes 0 10]).answer (.updateSizes 10 10) = .ok (some reading, e) ∧
        e.Reported reading ∧ reading.value.isFinite = true := by
  intro c
  have hc : c.validate = .ok () :=
    Config.validate_eq_ok_iff.mpr ⟨by decide, by decide, rfl⟩
  have hcap : 1 ≤ value c.marketCap := by
    rw [← value_one]
    exact (le_iff_value (by decide) (by decide)).mp (by decide)
  obtain ⟨e₀, hbuild, hrun⟩ := run_reported hc
  obtain rfl : .start c.marketCap c.resetPolicy = e₀ :=
    Except.ok.inj ((Estimator.build_eq_ok hc).symm.trans hbuild)
  obtain ⟨reading, e, hanswer, -⟩ := exists_reading
    (((Estimator.start c.marketCap c.resetPolicy).run [.updateSizes 0 10]).answer
      (.updateSizes 10 10)) (fun _ => true) (by decide +kernel)
  obtain ⟨hreported, -, hvalue, -⟩ := hrun _ _ _ _ hanswer
  exact ⟨hc, hcap, _, reading, e, hbuild, hanswer, hreported, hvalue hcap⟩

/-- A market capitalisation that is accepted and too small for a flow of ten. -/
theorem tiny_marketCap_reported_infinite :
    let c : Config := { marketCap := 1e-308 }
    c.validate = .ok () ∧
      ∃ e₀ reading e, Estimator.build c = .ok e₀ ∧
        (e₀.run [.updateSizes 0 10]).answer (.updateSizes 10 10) = .ok (some reading, e) ∧
        reading.value.isFinite = false := by
  intro c
  have hc : c.validate = .ok () :=
    Config.validate_eq_ok_iff.mpr ⟨by decide +kernel, by decide +kernel, rfl⟩
  obtain ⟨reading, e, hanswer, hvalue⟩ := exists_reading
    (((Estimator.start c.marketCap c.resetPolicy).run [.updateSizes 0 10]).answer
      (.updateSizes 10 10)) (fun r => !r.value.isFinite) (by decide +kernel)
  exact ⟨hc, _, reading, e, Estimator.build_eq_ok hc, hanswer, by simpa using hvalue⟩

end MarketSignals.OrderFlow
