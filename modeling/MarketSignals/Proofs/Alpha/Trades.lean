import MarketSignals.Alpha.Estimator
import MarketSignals.Proofs.Decimal.Layout
import MarketSignals.Proofs.Outcome
import MarketSignals.Registry.Basic

/-!
# The want of a trade

Two errors say that an event lacks the trade an estimator reads.  One is given by the
slot, which does not let such an event through, and one by the estimator itself.  An
estimator of the engine declares that it reads the trade exactly when it may give the
second, so behind a slot it never does.

The slot's error starts with a name that a host has chosen, so the two are told from
all other errors by how they end.

## Main definitions

* `MissesTrade` — the two errors.

## Main results

* `Alpha.not_missesTrade` — an event that a slot lets through does not lack the trade.
-/

namespace MarketSignals

/-- An error for the want of a trade, by an estimator or by its slot. -/
inductive MissesTrade : EngineError → Prop
  | estimator : MissesTrade (.invalidInput PriceFault.noTrade.message)
  | slot {ε : Type} (s : Slot ε) : MissesTrade (Registry.noTradeError s)

/-! ## How a wording ends -/

/-- A wording that does not end like the ones for the want of a trade. -/
def EndsOtherwise (s : String) : Prop :=
  ∀ front c, s.toList = front ++ ['n', c] → c ≠ 't' ∧ c ≠ 'e'

theorem MissesTrade.ends {error : EngineError} (hm : MissesTrade error) :
    ∃ reason front c, error = .invalidInput reason ∧ reason.toList = front ++ ['n', c] ∧
      (c = 't' ∨ c = 'e') := by
  cases hm with
  | estimator => exact ⟨_, "event carries no trade pri".toList, 't', rfl, rfl, .inl rfl⟩
  | slot s =>
      refine ⟨_, (s.alphaId.name ++ " (" ++ s.kind.name).toList ++
        ") needs a trade print, event carries no".toList, 'e', rfl, ?_, .inr rfl⟩
      have hlast : ") needs a trade print, event carries none".toList =
        ") needs a trade print, event carries no".toList ++ ['n', 'e'] := rfl
      show (s.alphaId.name ++ " (" ++ s.kind.name ++
        ") needs a trade print, event carries none").toList = _
      rw [String.toList_append, hlast, List.append_assoc]

theorem not_missesTrade_of_endsOtherwise {reason : String} (hr : EndsOtherwise reason) :
    ¬ MissesTrade (.invalidInput reason) := by
  intro hm
  obtain ⟨_, front, c, heq, hends, hc⟩ := hm.ends
  cases heq
  obtain ⟨ht, he⟩ := hr front c hends
  exact hc.elim ht he

theorem not_missesTrade_invariant (what : String) : ¬ MissesTrade (.invariant what) := by
  intro hm
  obtain ⟨_, _, _, heq, _⟩ := hm.ends
  cases heq

theorem endsOtherwise_of_getLast? {s : String} {d : Char} (hd : s.toList.getLast? = some d)
    (ht : d ≠ 't') (he : d ≠ 'e') : EndsOtherwise s := by
  intro front c hends
  have hlast : s.toList.getLast? = some c := by simp [hends]
  rw [hd] at hlast
  cases hlast
  exact ⟨ht, he⟩

/-- A wording that ends in a float. -/
theorem endsOtherwise_append_text (s : String) (x : Float) :
    EndsOtherwise (s ++ Decimal.text x) := by
  obtain ⟨d, hlast, hd⟩ := Decimal.getLast?_text x
  have happend : (s ++ Decimal.text x).toList.getLast? = some d := by
    rw [String.toList_append, List.getLast?_append, hlast]
    rfl
  apply endsOtherwise_of_getLast? happend
  · rintro rfl
    simp at hd
  · rintro rfl
    simp at hd

/-- A wording that ends in a given text. -/
theorem endsOtherwise_append (s : String) {ending : String} {d : Char}
    (hd : ending.toList.getLast? = some d) (ht : d ≠ 't') (he : d ≠ 'e') :
    EndsOtherwise (s ++ ending) := by
  have happend : (s ++ ending).toList.getLast? = some d := by
    rw [String.toList_append, List.getLast?_append, hd]
    rfl
  exact endsOtherwise_of_getLast? happend ht he

/-! ## Prices, volatility and flow -/

theorem PriceFault.endsOtherwise {fault : PriceFault} (hf : fault ≠ .noTrade) :
    EndsOtherwise fault.message := by
  cases fault with
  | noMid bid ask => exact endsOtherwise_append_text _ ask
  | noTrade => exact absurd rfl hf
  | unusable price => exact endsOtherwise_append_text _ price

/-- A convention declares a field of the trade when it reads trades. -/
theorem ReturnInput.any_ofTrade_iff (input : ReturnInput) :
    input.requiredFields.any EventField.ofTrade = true ↔ input.source = .lastTrade := by
  unfold requiredFields
  cases input.source <;> simp [EventField.ofTrade]

/-- Only a convention that reads trades finds none. -/
theorem ReturnTracker.source_of_noTrade {t : ReturnTracker} {event : MarketEvent}
    (hp : t.peek event = .error .noTrade) :
    t.input.source = .lastTrade ∧ event.isTrade = false := by
  unfold peek ReturnInput.priceOf at hp
  cases hraw : t.input.rawPrice event with
  | ok p =>
      rw [hraw] at hp
      by_cases hu : usablePrice p = true
      · simp [bind, Except.bind, hu] at hp
      · simp [bind, Except.bind, hu] at hp
  | error fault =>
      rw [hraw] at hp
      cases hp
      unfold ReturnInput.rawPrice at hraw
      split at hraw
      · split at hraw <;> cases hraw
      · next hsource =>
          split at hraw
          · cases hraw
          · next htrade => exact ⟨hsource, by rw [MarketEvent.isTrade, htrade]; rfl⟩

/-- A price that is missing for another reason than the want of a trade. -/
theorem ReturnTracker.not_missesTrade {t : ReturnTracker} {event : MarketEvent}
    (ha : t.input.source = .lastTrade → event.isTrade = true) {fault : PriceFault}
    (hp : t.peek event = .error fault) : ¬ MissesTrade (.invalidInput fault.message) := by
  apply not_missesTrade_of_endsOtherwise
  apply PriceFault.endsOtherwise
  rintro rfl
  obtain ⟨hsource, htrade⟩ := source_of_noTrade hp
  rw [ha hsource] at htrade
  cases htrade

theorem Garch.ReturnFault.not_missesTrade (fault : ReturnFault Float) :
    ¬ MissesTrade fault.toEngineError := by
  cases fault with
  | notFinite ret => exact not_missesTrade_of_endsOtherwise (endsOtherwise_append_text _ ret)
  | varianceOverflow s => exact not_missesTrade_invariant _
  | returnOverflow ret =>
      apply not_missesTrade_of_endsOtherwise
      intro front c hends
      -- both end in the same letter; the one before it tells them apart
      have hlast : " overflows the variance recurrence".toList =
        " overflows the variance recurren".toList ++ ['c', 'e'] := rfl
      have htext : ("GARCH return " ++ Decimal.text ret ++
          " overflows the variance recurrence").toList = front ++ ['n', c] := hends
      rw [String.toList_append, hlast, ← List.append_assoc] at htext
      have hpair := List.append_inj_right' htext rfl
      simp at hpair

theorem OrderFlow.BookFault.endsOtherwise (fault : BookFault Float) :
    EndsOtherwise fault.message := by
  cases fault with
  | price bid ask => exact endsOtherwise_append_text _ ask
  | size side amount => exact endsOtherwise_append_text _ amount

theorem OrderFlow.FlowFault.endsOtherwise (fault : FlowFault Float) :
    EndsOtherwise fault.message := by
  cases fault with
  | book fault => exact fault.endsOtherwise
  | tradeSize size => exact endsOtherwise_append_text _ size
  | volumeOverflow traded => exact endsOtherwise_append_text _ traded
  | stepOverflow previous current => exact endsOtherwise_append _ (d := ')') rfl (by decide) (by decide)
  | sumOverflow step => exact endsOtherwise_append_text _ step

/-- A volatility estimator that has what it reads refuses for other reasons. -/
theorem Garch.Estimator.not_missesTrade {e : Estimator} {event : MarketEvent}
    (ha : e.returns.input.source = .lastTrade → event.isTrade = true) {error : EngineError}
    (hu : e.update event = .error error) : ¬ MissesTrade error := by
  unfold update at hu
  rcases bind_eq_error_iff.mp hu with hpeek | ⟨pending, _, hrest⟩
  · obtain ⟨fault, hfault, rfl⟩ := mapError_eq_error_iff.mp hpeek
    exact ReturnTracker.not_missesTrade ha hfault
  · split at hrest
    · cases hrest
    · rcases bind_eq_error_iff.mp hrest with hfeed | ⟨fed, _, hfed⟩
      · unfold feed at hfeed
        rcases bind_eq_error_iff.mp hfeed with hstate | ⟨state, _, hstate⟩
        · obtain ⟨fault, _, rfl⟩ := mapError_eq_error_iff.mp hstate
          exact fault.not_missesTrade
        · cases hstate
      · cases hfed

theorem OrderFlow.Estimator.not_missesTrade {e : Estimator} {event : MarketEvent}
    {error : EngineError} (hu : e.update event = .error error) : ¬ MissesTrade error := by
  unfold update advance at hu
  rcases bind_eq_error_iff.mp hu with hflow | ⟨flow, _, hflow⟩
  · obtain ⟨fault, _, rfl⟩ := mapError_eq_error_iff.mp hflow
    exact not_missesTrade_of_endsOtherwise fault.endsOtherwise
  · cases hflow

/-! ## Regime detectors -/

/-- An error that is not about the input. -/
def EngineError.IsInternal (error : EngineError) : Prop := ∃ what, error = .invariant what

theorem ChiSquared.isInternal_survival {statistic : Float} {degrees : Nat} {error : EngineError}
    (hs : survival statistic degrees = .error (.refused error)) : error.IsInternal := by
  unfold survival at hs
  split at hs
  · cases hs
    exact ⟨_, rfl⟩
  · split at hs
    · cases hs
      exact ⟨_, rfl⟩
    · split at hs
      · cases hs
      · split at hs
        · cases hs
        · simp only at hs
          split at hs <;> cases hs

namespace Regime.Estimator

variable {e e' : Estimator} {error : EngineError}

theorem isInternal_evict (he : e.evict = (.error error, e')) : error.IsInternal := by
  unfold evict at he
  split at he
  · split at he
    · cases he
    · split at he
      · cases he
      · next hremove =>
          cases he
          unfold Histogram.remove at hremove
          split at hremove
          · cases hremove
          · cases hremove
            exact ⟨_, rfl⟩
  · cases he

theorem isInternal_evaluate (he : e.evaluate = .error (.refused error)) :
    error.IsInternal := by
  unfold evaluate at he
  rcases bind_eq_error_iff.mp he with hs | ⟨p, _, hp⟩
  · exact ChiSquared.isInternal_survival hs
  · cases hp

theorem isInternal_slide {sample : Float} {bin : Nat}
    (hs : e.slide sample bin = (.error (.refused error), e')) : error.IsInternal := by
  unfold slide at hs
  split at hs
  · next hevict =>
      cases hs
      exact isInternal_evict hevict
  · simp only at hs
    split at hs
    · cases hs
    · split at hs
      · cases hs
        exact ⟨_, rfl⟩
      · split at hs
        · cases hs
        · split at hs
          · cases hs
          · next hevaluate =>
              cases hs
              exact isInternal_evaluate hevaluate
          · cases hs

theorem isInternal_fill {bin : Nat} (hf : e.fill bin = (.error (.refused error), e')) :
    error.IsInternal := by
  unfold fill at hf
  split at hf
  · cases hf
  · simp only at hf
    split at hf
    · cases hf
    · cases hf
      exact ⟨_, rfl⟩

/-- A detector refuses a sample because it is not finite, or for an inner reason. -/
theorem push_refused {sample : Float} (hp : e.push sample = (.error (.refused error), e')) :
    error.IsInternal ∨
      error = .invalidInput ("KL sample must be finite, got " ++ Decimal.text sample) := by
  unfold push at hp
  split at hp
  · cases hp
    exact .inl ⟨_, rfl⟩
  · split at hp
    · cases hp
      exact .inr rfl
    · simp only at hp
      split at hp
      · exact .inl (isInternal_fill hp)
      · exact .inl (isInternal_slide hp)

theorem not_missesTrade {event : MarketEvent}
    (ha : e.returns.input.source = .lastTrade → event.isTrade = true)
    (hu : e.update event = (.error (.refused error), e')) : ¬ MissesTrade error := by
  unfold update at hu
  split at hu
  · cases hu
    exact not_missesTrade_invariant _
  · split at hu
    · next hpeek =>
        cases hu
        exact ReturnTracker.not_missesTrade ha hpeek
    · split at hu
      · cases hu
      · next ret _ =>
          cases hpush : e.push ret with
          | mk result pushed =>
              rw [hpush] at hu
              cases result with
              | ok reading => cases hu
              | error fault =>
                  cases hu
                  rcases push_refused hpush with ⟨what, rfl⟩ | rfl
                  · exact not_missesTrade_invariant what
                  · exact not_missesTrade_of_endsOtherwise (endsOtherwise_append_text _ ret)

end Regime.Estimator

/-! ## Behind a slot -/

namespace Alpha

variable {a a' : Alpha} {event : MarketEvent} {error : EngineError}

/-- Whether an event has the fields that an estimator declares. -/
def Takes (a : Alpha) (event : MarketEvent) : Prop :=
  a.requiredFields.any EventField.ofTrade = true → event.isTrade = true

theorem settle_refused {β ε : Type} {embed : ε → Alpha} {old : ε}
    {x : Except EngineError (β × ε)} (hs : settle embed old x = (.error (.refused error), a')) :
    x = .error error := by
  cases x with
  | ok p => cases hs
  | error error =>
      cases hs
      rfl

/-- An estimator does not want for a trade where the event has what it declares. -/
theorem not_missesTrade (ht : a.Takes event)
    (hu : a.update event = (.error (.refused error), a')) : ¬ MissesTrade error := by
  cases a with
  | garch e =>
      have hinput : e.returns.input.source = .lastTrade → event.isTrade = true :=
        fun hsource => ht (e.returns.input.any_ofTrade_iff.mpr hsource)
      exact Garch.Estimator.not_missesTrade hinput (settle_refused hu)
  | klRegime e =>
      have hinput : e.returns.input.source = .lastTrade → event.isTrade = true :=
        fun hsource => ht (e.returns.input.any_ofTrade_iff.mpr hsource)
      cases hr : e.update event with
      | mk result e' =>
          have hmap : (e.update event).map id klRegime = (.error (.refused error), a') := hu
          rw [hr] at hmap
          cases hmap
          exact Regime.Estimator.not_missesTrade hinput hr
  | ofi e => exact OrderFlow.Estimator.not_missesTrade (settle_refused hu)

end Alpha

end MarketSignals
