import MarketSignals.Proofs.Garch.Recovery

/-!
# One event fed twice

The price that the next return is taken from changes only with an accepted event.  So an
event that is accepted is compared with itself when it is fed again, the return is a zero,
and zero is accepted.  An event that is refused leaves everything as it was, the price
included, and is refused again for as long as no other event is accepted: a price that is too
far from the last one stays out of reach.

## Main results

* `compute_self` — the return from a price to itself.
* `Estimator.GrownFrom.update_iff` — which events with a price are accepted.
* `Estimator.GrownFrom.update_again` — an accepted event is accepted again.
* `Estimator.refused_twice` — a price out of reach.
* `fed_twice` — every run of accepted settings.
-/

namespace MarketSignals

open Rounding (value RoundsTo roundsTo_sub roundsTo_div not_le_zero_iff lt_iff_value)

/-! ## The return from a price to itself -/

theorem value_pos_of_usablePrice {x : Float} (h : usablePrice x = true) :
    x.isFinite = true ∧ 0 < value x := by
  obtain ⟨hfinite, hpos⟩ := Bool.and_eq_true_iff.mp h
  have hlt := (lt_iff_value rfl hfinite).mp (of_decide_eq_true hpos)
  rw [Rounding.value_zero] at hlt
  exact ⟨hfinite, hlt⟩

/-- A positive float goes into itself once. -/
theorem div_self_of_pos {x : Float} (hx : x.isFinite = true) (hpos : 0 < value x) : x / x = 1 := by
  have hone : (1 : Float).isFinite = true := rfl
  have hround := roundsTo_div hx hx hpos.ne'
  rw [div_self hpos.ne', ← Rounding.value_one] at hround
  have hfinite := hround.finite_iff.mpr (Rounding.abs_value_lt hone)
  have hvalue : value (x / x) = value 1 :=
    (hround.value_eq hfinite).trans (Rounding.rounded_value_eq hone)
  refine Rounding.eq_of_value_eq hfinite hone ?_ hvalue
  rw [hvalue, Rounding.value_one]
  exact one_pos

theorem ln_one [MathLibrary] : ln 1 = 0 := by
  unfold ln
  rw [if_neg (by decide), if_neg (by decide), if_pos (by decide)]

/-- The return from a price to itself is a zero. -/
theorem compute_self [MathLibrary] (input : ReturnInput) {x : Float}
    (hx : usablePrice x = true) :
    (input.compute x x).isFinite = true ∧ value (input.compute x x) = 0 := by
  obtain ⟨hfinite, hpos⟩ := value_pos_of_usablePrice hx
  unfold ReturnInput.compute
  cases input.kind with
  | log =>
      dsimp only
      rw [div_self_of_pos hfinite hpos, ln_one]
      exact ⟨rfl, Rounding.value_zero⟩
  | simple =>
      obtain ⟨hdifference, hzero⟩ := (roundsTo_sub hfinite hfinite).of_zero (sub_self _)
      refine (roundsTo_div hdifference hfinite hpos.ne').of_zero ?_
      rw [hzero, zero_div]

theorem usablePrice_of_priceOf {input : ReturnInput} {event : MarketEvent} {price : Float}
    (h : input.priceOf event = .ok price) : usablePrice price = true := by
  obtain ⟨raw, -, h⟩ := bind_eq_ok_iff.mp h
  split at h
  next husable =>
    cases h
    exact husable
  · cases h

namespace Garch

variable {p : Params Float} {v : Float}

namespace Estimator

variable {e e' : Estimator} {input : ReturnInput} {event : MarketEvent} {price : Float}

/-! ## Events with a price -/

/-- Where an accepted event has a price before it, the return is finite and so is the variance
after the next. -/
theorem finite_of_update (hprice : e.returns.input.priceOf event = .ok price) {previous : Float}
    (hlast : e.returns.lastPrice = some previous) {made : SignalReading × Estimator}
    (hu : e.update event = .ok made) :
    (e.returns.input.compute previous price).isFinite = true ∧
      (e.params.step (e.state.next e.params)
        (e.returns.input.compute previous price)).isFinite = true := by
  rw [update_eq hprice, hlast] at hu
  obtain ⟨fed, hfed, -⟩ := map_eq_ok_iff.mp hu
  obtain ⟨state, hstate, -⟩ := feed_eq_ok_iff.mp hfed
  obtain ⟨hret, -, hahead, -⟩ := State.feed_eq_ok_iff.mp hstate
  exact ⟨hret, hahead⟩

namespace GrownFrom

theorem input_eq (h : GrownFrom p v input e) : e.returns.input = input :=
  congrArg (fun e : Estimator => e.returns.input) h.settings

/-- An event with a price is accepted if there is no last price, or the return from it and
the variance after the next are finite. -/
theorem update_iff (h : GrownFrom p v input e) (hprice : input.priceOf event = .ok price)
    (hnext : (e.state.next p).isFinite = true) :
    (∃ made, e.update event = .ok made) ↔
      ∀ previous, e.returns.lastPrice = some previous →
        (input.compute previous price).isFinite = true ∧
          (p.step (e.state.next p) (input.compute previous price)).isFinite = true := by
  obtain rfl := h.input_eq
  obtain rfl := h.params
  constructor
  · rintro ⟨made, hu⟩ previous hlast
    exact finite_of_update hprice hlast hu
  · intro hfinite
    rw [update_eq hprice]
    cases hlast : e.returns.lastPrice with
    | none => exact ⟨_, rfl⟩
    | some previous =>
        obtain ⟨hret, hahead⟩ := hfinite previous hlast
        exact ⟨_, map_eq_ok_iff.mpr ⟨_, feed_eq_ok_iff.mpr
          ⟨_, State.feed_eq_ok_iff.mpr ⟨hret, hnext, hahead, rfl⟩, rfl⟩, rfl⟩⟩

end GrownFrom

/-- The price of an accepted event is the one that the next return is taken from. -/
theorem lastPrice_of_update (hprice : e.returns.input.priceOf event = .ok price)
    {reading : SignalReading} (hu : e.update event = .ok (reading, e')) :
    e'.returns.lastPrice = some price := by
  rw [update_eq hprice] at hu
  cases hlast : e.returns.lastPrice with
  | none =>
      rw [hlast] at hu
      cases hu
      rfl
  | some previous =>
      rw [hlast] at hu
      obtain ⟨fed, -, hmade⟩ := map_eq_ok_iff.mp hu
      cases hmade
      rfl

namespace GrownFrom

/-- An accepted event is accepted again: its return is a zero. -/
theorem update_again (h : GrownFrom p v input e) (hp : p.Accepted) (hv : v.isFinite = true)
    (homega : value p.omega < wedgePoint) (hprice : input.priceOf event = .ok price)
    {reading : SignalReading} (hu : e.update event = .ok (reading, e')) :
    ∃ made, e'.update event = .ok made := by
  have h' := h.answer (answer_update hu)
  have hnext := h'.isFinite_next hp hv homega
  refine (h'.update_iff hprice hnext).mpr fun previous hprevious => ?_
  obtain rfl : price = previous :=
    Option.some.inj ((lastPrice_of_update (h.input_eq ▸ hprice) hu).symm.trans hprevious)
  obtain ⟨hret, hzero⟩ := compute_self input (usablePrice_of_priceOf hprice)
  exact ⟨hret, isFinite_step_zero_of_lt hp homega hret hzero hnext⟩

/-- An event with a price is only refused as invalid input. -/
theorem update_error (h : GrownFrom p v input e) (hprice : input.priceOf event = .ok price)
    (hnext : (e.state.next p).isFinite = true) {error : EngineError}
    (hu : e.update event = .error error) : ∃ what, error = .invalidInput what := by
  rw [update_eq (h.input_eq ▸ hprice)] at hu
  cases hlast : e.returns.lastPrice with
  | none =>
      rw [hlast] at hu
      cases hu
  | some previous =>
      rw [hlast] at hu
      dsimp only at hu
      cases hfeed : e.feed (e.returns.input.compute previous price) with
      | ok fed =>
          rw [hfeed] at hu
          cases hu
      | error error =>
          rw [hfeed] at hu
          cases hu
          obtain ⟨what, rfl | rfl⟩ := feed_error hfeed
          · exact ⟨what, rfl⟩
          · obtain ⟨-, hbroken⟩ := feed_eq_invariant_iff.mp ⟨what, hfeed⟩
            rw [h.params, hnext] at hbroken
            cases hbroken

end GrownFrom

/-- A price that gives no return from the first one is refused, and refused again. -/
theorem refused_twice (p : Params Float) (v : Float) {seed : MarketEvent} {first : Float}
    (hseed : input.priceOf seed = .ok first) (hprice : input.priceOf event = .ok price)
    (hret : (input.compute first price).isFinite = false) :
    (∃ made, (start p v input).update seed = .ok made) ∧
      (∃ error, ((start p v input).run [.update seed]).update event = .error error) ∧
      ∃ error, ((start p v input).run [.update seed, .update event]).update event =
        .error error := by
  have hu := update_eq (e := start p v input) hseed
  have hseeded := perform_of_answer (answer_update hu)
  obtain ⟨error, herror⟩ : ∃ error,
      ((start p v input).noting first).update event = .error error := by
    cases hanswer : ((start p v input).noting first).update event with
    | error error => exact ⟨error, rfl⟩
    | ok made =>
        have hfinite := (finite_of_update (e := (start p v input).noting first) hprice rfl hanswer).1
        exact absurd hfinite (Bool.not_eq_true _ ▸ hret)
  have hsame := perform_of_error (answer_update_error herror)
  have hrun : (start p v input).run [.update seed] = (start p v input).noting first := hseeded
  have hrun' : (start p v input).run [.update seed, .update event] =
      (start p v input).noting first := by
    show ((start p v input).perform (.update seed)).perform (.update event) = _
    rw [hseeded, hsame]
  rw [hrun, hrun']
  exact ⟨⟨_, hu⟩, ⟨error, herror⟩, error, herror⟩

end Estimator

/-! ## Runs -/

/-- An event with a price, fed twice in a state that accepted settings come to.  If it is
refused, nothing changes and it is refused again in the same way.  With a constant below the
point it is accepted again if it is accepted, and it is refused, as invalid input, only where
there is a last price and the return from it or the variance after the next is not finite. -/
theorem fed_twice {c : Config} {p : Params Float} (hc : c.params = .ok p) :
    ∃ e₀, Estimator.build c = .ok e₀ ∧
      ∀ calls event price, c.input.priceOf event = .ok price →
        let e := e₀.run calls
        (∀ error, e.update event = .error error →
          e.perform (.update event) = e ∧
            (e.perform (.update event)).update event = .error error) ∧
        (value c.omega < wedgePoint →
          ((∃ made, e.update event = .ok made) →
            ∃ made, (e.perform (.update event)).update event = .ok made) ∧
          ((∃ made, e.update event = .ok made) ↔
            ∀ previous, e.returns.lastPrice = some previous →
              (c.input.compute previous price).isFinite = true ∧
                (p.step (e.state.next p) (c.input.compute previous price)).isFinite = true) ∧
          ∀ error, e.update event = .error error → ∃ what, error = .invalidInput what) := by
  obtain ⟨hp, haccepted, hinitial, -⟩ := Config.params_eq_ok_iff.mp hc
  have homegaEq : c.omega = p.omega := by rw [hp]
  refine ⟨_, Estimator.build_eq_ok hc, ?_⟩
  intro calls event price hprice
  have hgrown := Estimator.grownFrom_run p c.initialVariance c.input calls
  dsimp only
  refine ⟨?_, ?_⟩
  · intro error hu
    have hsame := Estimator.perform_of_error (Estimator.answer_update_error hu)
    exact ⟨hsame, hsame.symm ▸ hu⟩
  · intro homega
    rw [homegaEq] at homega
    have hnext := hgrown.isFinite_next haccepted hinitial homega
    refine ⟨?_, hgrown.update_iff hprice hnext, fun error => hgrown.update_error hprice hnext⟩
    rintro ⟨⟨reading, e'⟩, hu⟩
    rw [Estimator.perform_of_answer (Estimator.answer_update hu)]
    exact hgrown.update_again haccepted hinitial homega hprice hu

/-- A quote of one price on both sides. -/
def quoteAt (price : Float) : MarketEvent := ⟨⟨0⟩, ⟨"X"⟩, price, 0, price, 0, none⟩

theorem priceOf_quoteAt (price : Float) (h : usablePrice price = true)
    (hmid : (price + price) / 2 = price) : everyday.input.priceOf (quoteAt price) = .ok price := by
  have hquotes : (quoteAt price).midPrice? = some price := by
    show (if usablePrice price && usablePrice price then some ((price + price) / 2) else none) = _
    rw [h, hmid]
    rfl
  unfold ReturnInput.priceOf ReturnInput.rawPrice
  rw [hquotes]
  exact if_pos h

/-- Everyday settings and a first price of one hundred: it is noted, and accepted again. -/
theorem fed_twice_everyday :
    everyday.params = .ok ⟨0.1, 0.1, 0.8⟩ ∧
      everyday.input.priceOf (quoteAt 100) = .ok 100 ∧ value everyday.omega < wedgePoint ∧
      ∃ e₀, Estimator.build everyday = .ok e₀ ∧
        (∃ made, (e₀.run []).update (quoteAt 100) = .ok made) ∧
        ∃ made, ((e₀.run []).perform (.update (quoteAt 100))).update (quoteAt 100) = .ok made := by
  have hprice := priceOf_quoteAt 100 (by decide +kernel) (by decide +kernel)
  obtain ⟨e₀, hbuild, htwice⟩ := fed_twice params_everyday
  obtain rfl : .start ⟨0.1, 0.1, 0.8⟩ 1 {} = e₀ :=
    Except.ok.inj ((Estimator.build_eq_ok params_everyday).symm.trans hbuild)
  obtain ⟨hagain, hiff, -⟩ := (htwice [] _ _ hprice).2 omega_everyday_lt
  have hfirst := hiff.mpr fun previous hprevious => by cases hprevious
  exact ⟨params_everyday, hprice, omega_everyday_lt, _, hbuild, hfirst, hagain hfirst⟩

/-- The least price and then one hundred: the ratio of the two is infinite, and its logarithm
is no return.  The second price is refused, and refused again. -/
theorem distant_price_refused_twice :
    everyday.params = .ok ⟨0.1, 0.1, 0.8⟩ ∧
      everyday.input.priceOf (quoteAt 5e-324) = .ok 5e-324 ∧
      everyday.input.priceOf (quoteAt 100) = .ok 100 ∧
      ∃ e₀, Estimator.build everyday = .ok e₀ ∧
        (∃ made, e₀.update (quoteAt 5e-324) = .ok made) ∧
        (∃ error, (e₀.run [.update (quoteAt 5e-324)]).update (quoteAt 100) = .error error) ∧
        ∃ error, (e₀.run [.update (quoteAt 5e-324), .update (quoteAt 100)]).update
          (quoteAt 100) = .error error := by
  have hleast := priceOf_quoteAt 5e-324 (by decide +kernel) (by decide +kernel)
  have hhundred := priceOf_quoteAt 100 (by decide +kernel) (by decide +kernel)
  have hret : (everyday.input.compute 5e-324 100).isFinite = false := by decide +kernel
  exact ⟨params_everyday, hleast, hhundred, _, Estimator.build_eq_ok params_everyday,
    Estimator.refused_twice _ _ hleast hhundred hret⟩

end Garch

end MarketSignals
