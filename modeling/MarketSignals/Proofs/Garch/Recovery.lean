import MarketSignals.Proofs.Garch.Variance

/-!
# Whether the recurrence goes on

An estimator looks one step ahead before it accepts a return, so that the return can be
folded in afterwards.  That leaves two ways to come to a stop.  The first variance comes
from the settings and is not looked at, and a return of zero may be accepted where no
further one can be.  Both need a constant of at least one and a half units in the last place
of the greatest float: with a smaller one, zero is accepted in every state.

## Main definitions

* `wedgePoint` — the least constant that may stop the recurrence.

## Main results

* `isFinite_step_zero_of_step` — where any return is accepted, zero is.
* `isFinite_step_zero_of_lt` — with a constant below the point, zero always is.
* `exists_stopped_of_le` — and with no greater one it always is.
* `run_goes_on` — what holds of every run of accepted settings.
-/

namespace MarketSignals.Garch

open Rounding (value rounded overflowPoint greatestValue RoundsTo roundsTo_add roundsTo_mul
  isFinite_of_add isFinite_of_mul abs_value_lt abs_value_le rounded_value_eq
  rounded_mono lt_iff_value le_iff_value not_lt_zero_iff not_le_zero_iff value_zero value_one)

variable {p : Params Float} {v r : Float}

/-! ## One step -/

/-- The next variance is finite if the constant and the squared return are, what is kept of
the last variance is, and there is room for both. -/
theorem isFinite_step_iff :
    (p.step v r).isFinite = true ↔
      (p.omega + p.alpha * r * r).isFinite = true ∧ (p.beta * v).isFinite = true ∧
        |value (p.omega + p.alpha * r * r) + value (p.beta * v)| < overflowPoint := by
  show (p.omega + p.alpha * r * r + p.beta * v).isFinite = true ↔ _
  constructor
  · intro h
    obtain ⟨hgrown, hkept⟩ := isFinite_of_add h
    exact ⟨hgrown, hkept, (roundsTo_add hgrown hkept).finite_iff.mp h⟩
  · rintro ⟨hgrown, hkept, hsum⟩
    exact (roundsTo_add hgrown hkept).finite_iff.mpr hsum

/-- A return of zero, with whichever sign, adds nothing to the constant. -/
theorem add_no_shock (hp : p.Accepted) (hr : r.isFinite = true) (hzero : value r = 0) :
    (p.omega + p.alpha * r * r).isFinite = true ∧
      value (p.omega + p.alpha * r * r) = value p.omega := by
  obtain ⟨hfirst, hfirstValue⟩ := (roundsTo_mul hp.alpha_finite hr).of_zero (by simp [hzero])
  obtain ⟨hshock, hshockValue⟩ := (roundsTo_mul hfirst hr).of_zero (by simp [hzero])
  have hsum := roundsTo_add hp.omega_finite hshock
  rw [hshockValue, add_zero] at hsum
  have hfinite := hsum.finite_iff.mpr (abs_value_lt hp.omega_finite)
  exact ⟨hfinite, (hsum.value_eq hfinite).trans (rounded_value_eq hp.omega_finite)⟩

/-- The variance after a return of zero is the constant and what is kept of the last
variance. -/
theorem isFinite_step_zero_iff (hp : p.Accepted) :
    (p.step v 0).isFinite = true ↔
      (p.beta * v).isFinite = true ∧ |value p.omega + value (p.beta * v)| < overflowPoint := by
  obtain ⟨hconstant, hvalue⟩ := add_no_shock hp (r := 0) rfl value_zero
  rw [isFinite_step_iff, hvalue]
  exact and_iff_right hconstant

/-- Where any return is accepted, zero is: it adds least to the variance. -/
theorem isFinite_step_zero_of_step (hp : p.Accepted) (h : (p.step v r).isFinite = true) :
    (p.step v 0).isFinite = true := by
  obtain ⟨hgrown, hkept, hsum⟩ := isFinite_step_iff.mp h
  have hle := omega_le_shocked hp hgrown
  have hsum := abs_lt.mp hsum
  have hlow := (abs_lt.mp (abs_value_lt hkept)).1
  have hpos := hp.omega_value_pos
  exact (isFinite_step_zero_iff hp).mpr ⟨hkept, abs_lt.mpr ⟨by linarith, by linarith⟩⟩

/-! ## The size of the constant -/

/-- The least constant that may stop the recurrence. -/
def wedgePoint : ℚ := 3 / 2 * 2 ^ (971 : ℤ)

/-- The float next to one times the greatest float is rounded to the second greatest. -/
theorem rounded_greatest_kept :
    rounded ((1 - 2 ^ (-53 : ℤ)) * greatestValue) = (2 ^ 53 - 2) * 2 ^ (971 : ℤ) := by
  have hunits : (1 - 2 ^ (-53 : ℤ)) * greatestValue =
      (2 ^ 53 - 2 + 2 ^ (-53 : ℤ)) * 2 ^ (971 : ℤ) := by
    rw [greatestValue, ← mul_assoc]
    congr 1
    norm_num
  rw [hunits, Rounding.rounded_eq (n := 2 ^ 53 - 2) (by norm_num) (by norm_num) (by norm_num)
    (.inr (by norm_num)) (.of_lt (by norm_num) (by norm_num))]
  norm_num

theorem greatest_kept_lt : (1 - 2 ^ (-53 : ℤ)) * greatestValue < overflowPoint := by
  have hgreatest : 0 < greatestValue := mul_pos (by norm_num) (Decimal.two_zpow_pos _)
  calc (1 - 2 ^ (-53 : ℤ)) * greatestValue ≤ greatestValue :=
        mul_le_of_le_one_left hgreatest.le (by norm_num)
    _ < overflowPoint := Rounding.greatestValue_lt

/-- What is kept of a variance leaves room for the constant. -/
theorem kept_le (hp : p.Accepted) (hv : v.isFinite = true) :
    (p.beta * v).isFinite = true ∧ value (p.beta * v) ≤ (2 ^ 53 - 2) * 2 ^ (971 : ℤ) := by
  have hproduct := roundsTo_mul hp.beta_finite hv
  have hle : |value p.beta * value v| ≤ (1 - 2 ^ (-53 : ℤ)) * greatestValue := by
    rw [abs_mul, abs_of_nonneg hp.beta_value_nonneg]
    exact mul_le_mul hp.beta_value_le (abs_value_le hv) (abs_nonneg _) (by norm_num)
  have hfinite := hproduct.finite_iff.mpr (hle.trans_lt greatest_kept_lt)
  refine ⟨hfinite, ?_⟩
  rw [hproduct.value_eq hfinite, ← rounded_greatest_kept]
  exact rounded_mono ((le_abs_self _).trans hle)

/-- As long as the constant and the squared return stay below the point, there is room for
what is kept of any variance. -/
theorem isFinite_step_of_lt (hp : p.Accepted)
    (hgrown : (p.omega + p.alpha * r * r).isFinite = true)
    (hlt : value (p.omega + p.alpha * r * r) < wedgePoint) (hv : v.isFinite = true) :
    (p.step v r).isFinite = true := by
  obtain ⟨hkept, hle⟩ := kept_le hp hv
  have hlow := (abs_lt.mp (abs_value_lt hkept)).1
  have hpos := hp.omega_value_pos.trans_le (omega_le_shocked hp hgrown)
  have hroom : wedgePoint + (2 ^ 53 - 2) * 2 ^ (971 : ℤ) = overflowPoint := by
    rw [wedgePoint, Rounding.overflowPoint_eq]
    ring
  exact isFinite_step_iff.mpr ⟨hgrown, hkept, abs_lt.mpr ⟨by linarith, by linarith⟩⟩

/-- With a constant below the point, zero is accepted after every variance. -/
theorem isFinite_step_zero_of_lt (hp : p.Accepted) (homega : value p.omega < wedgePoint)
    (hr : r.isFinite = true) (hzero : value r = 0) (hv : v.isFinite = true) :
    (p.step v r).isFinite = true := by
  obtain ⟨hconstant, hvalue⟩ := add_no_shock hp hr hzero
  exact isFinite_step_of_lt hp hconstant (hvalue.trans_lt homega) hv

/-! ### No greater constant -/

/-- The float next to one. -/
def nextToOne : Decimal.Dyadic := ⟨2 ^ 53 - 1, -53⟩

/-- The greatest float. -/
def greatest : Decimal.Dyadic := ⟨2 ^ 53 - 1, 971⟩

theorem canonical_nextToOne : nextToOne.Canonical :=
  .normalized (by decide) (by decide) (by decide) (by decide)

theorem canonical_greatest : greatest.Canonical :=
  .normalized (by decide) (by decide) (by decide) (by decide)

/-- Settings that keep as much of as great a first variance as can be. -/
def tightConfig (omega : Float) : Config where
  omega := omega
  alpha := 0
  beta := nextToOne.float canonical_nextToOne false
  initialVariance := greatest.float canonical_greatest false

theorem value_nextToOne :
    value (nextToOne.float canonical_nextToOne false) = 1 - 2 ^ (-53 : ℤ) := by
  rw [Rounding.value_float]
  show ((2 ^ 53 - 1 : ℕ) : ℚ) * 2 ^ (-53 : ℤ) = _
  norm_num

theorem value_greatest : value (greatest.float canonical_greatest false) = greatestValue := by
  rw [Rounding.value_float]
  show ((2 ^ 53 - 1 : ℕ) : ℚ) * 2 ^ (971 : ℤ) = _
  rw [greatestValue]
  norm_num

theorem accepted_tightConfig {omega : Float} (hfinite : omega.isFinite = true)
    (hpos : 0 < value omega) : ∃ p, (tightConfig omega).params = .ok p := by
  have hzero : (0 : Float).isFinite = true := rfl
  have hbeta := Decimal.isFinite_float canonical_nextToOne false
  have hinitial := Decimal.isFinite_float canonical_greatest false
  have hsum := roundsTo_add hzero hbeta
  rw [value_zero, zero_add] at hsum
  have hsumFinite := hsum.finite_iff.mpr (abs_value_lt hbeta)
  refine ⟨_, Config.params_eq_ok_iff.mpr
    ⟨rfl, ⟨hfinite, hzero, hbeta, ?_, ?_, ?_, ?_⟩, hinitial, ?_⟩⟩
  · exact (not_le_zero_iff hfinite).mpr hpos
  · exact (not_lt_zero_iff hzero).mpr value_zero.ge
  · refine (not_lt_zero_iff hbeta).mpr ?_
    rw [value_nextToOne]
    norm_num
  · refine mt (le_iff_value rfl hsumFinite).mp ?_
    rw [value_one, hsum.value_eq hsumFinite, rounded_value_eq hbeta, value_nextToOne]
    norm_num
  · refine (not_lt_zero_iff hinitial).mpr ?_
    rw [value_greatest, greatestValue]
    norm_num

/-- With any greater constant some accepted settings have no next variance. -/
theorem exists_stopped_of_le {omega : Float} (hfinite : omega.isFinite = true)
    (hlarge : wedgePoint ≤ value omega) :
    ∃ (c : Config) (p : Params Float), c.omega = omega ∧ c.params = .ok p ∧
      ((State.start c.initialVariance).next p).isFinite = false := by
  have hpos : 0 < value omega :=
    (mul_pos (by norm_num) (Decimal.two_zpow_pos _)).trans_le hlarge
  obtain ⟨p, hparams⟩ := accepted_tightConfig hfinite hpos
  obtain ⟨rfl, hp, hinitial, -⟩ := Config.params_eq_ok_iff.mp hparams
  refine ⟨tightConfig omega, _, rfl, hparams, ?_⟩
  rw [← Bool.not_eq_true]
  intro hnext
  obtain ⟨hkept, hsum⟩ := (isFinite_step_zero_iff hp).mp hnext
  have hvalue : value ((tightConfig omega).beta * (tightConfig omega).initialVariance) =
      (2 ^ 53 - 2) * 2 ^ (971 : ℤ) := by
    rw [(roundsTo_mul hp.beta_finite hinitial).value_eq hkept, ← rounded_greatest_kept,
      ← value_nextToOne, ← value_greatest]
    rfl
  have hlt : value omega +
      value ((tightConfig omega).beta * (tightConfig omega).initialVariance) < overflowPoint :=
    (abs_lt.mp hsum).2
  rw [hvalue, Rounding.overflowPoint_eq] at hlt
  rw [wedgePoint] at hlarge
  linarith

/-! ## Runs -/

namespace Estimator

/-- Zero is fed when the next variance and the one after that are finite. -/
theorem feed_zero {e : Estimator} (hnext : (e.state.next e.params).isFinite = true)
    (hahead : (e.params.step (e.state.next e.params) 0).isFinite = true) :
    ∃ e', e.feed 0 = .ok e' :=
  ⟨_, feed_eq_ok_iff.mpr ⟨_, State.feed_eq_ok_iff.mpr ⟨rfl, hnext, hahead, rfl⟩, rfl⟩⟩

/-- Zero finds the invariant broken when the next variance is not finite. -/
theorem feed_zero_of_not_isFinite_next {e : Estimator}
    (hnext : (e.state.next e.params).isFinite = false) :
    ∃ what, e.feed 0 = .error (.invariant what) :=
  feed_eq_invariant_iff.mpr ⟨rfl, hnext⟩

/-- Where a return is fed, zero is. -/
theorem feed_zero_of_feed {e e' : Estimator} (hp : e.params.Accepted) {ret : Float}
    (h : e.feed ret = .ok e') : ∃ e', e.feed 0 = .ok e' := by
  obtain ⟨state, hstate, -⟩ := feed_eq_ok_iff.mp h
  obtain ⟨-, hnext, hahead, -⟩ := State.feed_eq_ok_iff.mp hstate
  exact feed_zero hnext (isFinite_step_zero_of_step hp hahead)

/-- Zero is fed in some state, or no return is. -/
theorem feed_zero_or_refused (e : Estimator) (hp : e.params.Accepted) :
    (∃ e', e.feed 0 = .ok e') ∨ ∀ ret, ∃ error, e.feed ret = .error error := by
  by_cases h : ∃ ret e', e.feed ret = .ok e'
  · obtain ⟨ret, e', hfeed⟩ := h
    exact .inl (feed_zero_of_feed hp hfeed)
  · right
    intro ret
    cases hfeed : e.feed ret with
    | ok e' => exact absurd ⟨ret, e', hfeed⟩ h
    | error error => exact ⟨error, rfl⟩

namespace GrownFrom

variable {v : Float} {input : ReturnInput} {e : Estimator}

/-- The next variance is only ever found to be broken in the first state. -/
theorem not_isFinite_start (h : GrownFrom p v input e) {ret : Float} {what : String}
    (hfeed : e.feed ret = .error (.invariant what)) :
    ((State.start v).next p).isFinite = false := by
  obtain ⟨-, hnext⟩ := feed_eq_invariant_iff.mp ⟨what, hfeed⟩
  rw [h.params] at hnext
  rcases h.reached.start_or_finite with hstart | hfinite
  · rwa [hstart] at hnext
  · exact absurd hfinite (Bool.not_eq_true _ ▸ hnext)

/-- With a constant below the point, every state has a next variance. -/
theorem isFinite_next (h : GrownFrom p v input e) (hp : p.Accepted) (hv : v.isFinite = true)
    (homega : value p.omega < wedgePoint) : (e.state.next p).isFinite = true := by
  rcases h.reached.start_or_finite with hstart | hnext
  · rw [hstart]
    show (p.step v 0).isFinite = true
    exact isFinite_step_zero_of_lt hp homega rfl value_zero hv
  · exact hnext

/-- And every state goes on. -/
theorem goes_on (h : GrownFrom p v input e) (hp : p.Accepted) (hv : v.isFinite = true)
    (homega : value p.omega < wedgePoint) :
    (∃ e', e.feed 0 = .ok e') ∧ ∀ ret what, e.feed ret ≠ .error (.invariant what) := by
  have hnext := h.isFinite_next hp hv homega
  have hahead := isFinite_step_zero_of_lt hp homega rfl value_zero hnext
  rw [← h.params] at hnext hahead
  refine ⟨feed_zero hnext hahead, ?_⟩
  intro ret what hfeed
  obtain ⟨-, hbroken⟩ := feed_eq_invariant_iff.mp ⟨what, hfeed⟩
  exact absurd hnext (Bool.not_eq_true _ ▸ hbroken)

end GrownFrom

end Estimator

theorem omega_everyday_lt : value everyday.omega < wedgePoint := by
  have hone : value everyday.omega < value 1 :=
    (lt_iff_value (by decide) (by decide)).mp (by decide)
  refine hone.trans ?_
  rw [value_one, wedgePoint]
  exact one_lt_mul_of_lt_of_le (by norm_num) (one_le_zpow₀ (by norm_num) (by norm_num))

/-- What holds of every run of accepted settings.  The next variance is found to be broken
in some state exactly if it is in the first.  In each state zero is accepted or nothing is.
And with a constant below the point zero is accepted in all of them. -/
theorem run_goes_on {c : Config} {p : Params Float} (hc : c.params = .ok p) :
    ∃ e₀, Estimator.build c = .ok e₀ ∧
      ((∃ calls ret what, (e₀.run calls).feed ret = .error (.invariant what)) ↔
        (e₀.state.next p).isFinite = false) ∧
      (∀ calls, (∃ e, (e₀.run calls).feed 0 = .ok e) ∨
        ∀ ret, ∃ error, (e₀.run calls).feed ret = .error error) ∧
      (value c.omega < wedgePoint → ∀ calls,
        (∃ e, (e₀.run calls).feed 0 = .ok e) ∧
          ∀ ret what, (e₀.run calls).feed ret ≠ .error (.invariant what)) := by
  obtain ⟨hp, haccepted, hinitial, -⟩ := Config.params_eq_ok_iff.mp hc
  have homegaEq : c.omega = p.omega := by rw [hp]
  have hgrown := Estimator.grownFrom_run p c.initialVariance c.input
  refine ⟨_, Estimator.build_eq_ok hc, ⟨?_, ?_⟩, ?_, ?_⟩
  · rintro ⟨calls, ret, what, hfeed⟩
    exact (hgrown calls).not_isFinite_start hfeed
  · intro hnext
    obtain ⟨what, hfeed⟩ := Estimator.feed_zero_of_not_isFinite_next
      (e := .start p c.initialVariance c.input) hnext
    exact ⟨[], 0, what, hfeed⟩
  · intro calls
    refine Estimator.feed_zero_or_refused _ ?_
    rw [(hgrown calls).params]
    exact haccepted
  · intro homega calls
    rw [homegaEq] at homega
    exact (hgrown calls).goes_on haccepted hinitial homega

/-- Everyday settings have a constant below the point. -/
theorem run_goes_on_everyday :
    everyday.params = .ok ⟨0.1, 0.1, 0.8⟩ ∧ value everyday.omega < wedgePoint ∧
      ∃ e₀, Estimator.build everyday = .ok e₀ ∧ ∀ calls,
        (∃ e, (e₀.run calls).feed 0 = .ok e) ∧
          ∀ ret what, (e₀.run calls).feed ret ≠ .error (.invariant what) := by
  obtain ⟨e₀, hbuild, -, -, hgoes⟩ := run_goes_on params_everyday
  exact ⟨params_everyday, omega_everyday_lt, e₀, hbuild, hgoes omega_everyday_lt⟩

/-! ### A constant that stops the recurrence -/

/-- Settings with a constant of more than half the greatest float. -/
def largeConstant : Config where
  omega := 1e308
  alpha := 0
  beta := 0.7
  initialVariance := 0

theorem params_largeConstant : largeConstant.params = .ok ⟨1e308, 0, 0.7⟩ :=
  Config.params_eq_ok_iff.mpr ⟨rfl, ⟨by decide +kernel, by decide, by decide, by decide +kernel,
    by decide, by decide, by decide⟩, by decide, by decide⟩

/-- They are accepted and so is a first return of zero, but no return after it. -/
theorem largeConstant_stops :
    ∃ p e₀ e, largeConstant.params = .ok p ∧ Estimator.build largeConstant = .ok e₀ ∧
      e₀.feed 0 = .ok e ∧ ∀ ret, ∃ error, e.feed ret = .error error := by
  obtain ⟨-, hp, -, -⟩ := Config.params_eq_ok_iff.mp params_largeConstant
  refine ⟨_, _, _, params_largeConstant, Estimator.build_eq_ok params_largeConstant,
    Estimator.feed_eq_ok_iff.mpr
    ⟨_, State.feed_eq_ok_iff.mpr ⟨rfl, by decide +kernel, by decide +kernel, rfl⟩, rfl⟩, ?_⟩
  refine (Estimator.feed_zero_or_refused _ ?_).resolve_left ?_
  · exact hp
  · rintro ⟨e, he⟩
    obtain ⟨state, hstate, -⟩ := Estimator.feed_eq_ok_iff.mp he
    obtain ⟨-, -, hahead, -⟩ := State.feed_eq_ok_iff.mp hstate
    revert hahead
    decide +kernel

end MarketSignals.Garch
