import MarketSignals.Proofs.Alpha.Failure
import MarketSignals.Proofs.Registry.Isolation

/-!
# Failed calls on the engine's estimators

A cell whose estimator refuses a call stays as it was, and so does the registry.
The exception is an update in the course of which the test of a regime detector
fails.  The detector is then disabled, and its cell stays as it is until a reset.

## Main definitions

* `Cell.Broken` — what a failed test does to a cell.
* `Cell.IsDisabled` — calls on the estimator are refused until a reset.
* `Call.Brings`, `All` — the estimators that a call brings in, and a property of all
  that a registry holds.
* `Call.Stock`, `Sound` — estimators that come out of settings, and the registries
  that hold them.

## Main results

* `Cell.feed_error`, `Cell.act_error` — a call on one cell that is refused.
* `Cell.respond_of_isDisabled` — nothing but a reset reaches a disabled estimator.
* `All.run` — what every call on an estimator keeps, over a run.
* `Sound.run` — registries stay sound over every run.
* `perform_error` — a call that fails.
-/

namespace MarketSignals

/-! ## Cells of the engine's estimators -/

namespace Cell

variable {c c' : Cell Alpha} {event : MarketEvent}

/-- The estimator of a cell is sound. -/
def Sound (c : Cell Alpha) : Prop := c.slot.estimator.Sound

/-- The estimator of a cell is disabled: by its slot, or by itself. -/
def IsDisabled (c : Cell Alpha) : Prop :=
  c.slot.disabled = true ∨ c.slot.estimator.isDisabled = true

/-- A test fails when the event is fed to a cell. -/
def Breaks (event : MarketEvent) (c : Cell Alpha) : Prop :=
  c.slot.disabled = false ∧ c.slot.estimator.TestFails event

/-- What a failed test does to a cell: its detector has taken the sample in and is
disabled. -/
structure Broken (event : MarketEvent) (c c' : Cell Alpha) : Prop where
  breaks : c.Breaks event
  failed : ∃ fault, c.slot.estimator.TestFailed event c'.slot.estimator fault
  isDisabled : c'.IsDisabled
  key_eq : c'.slot.key = c.slot.key
  latest_eq : c'.latest = c.latest

theorem outcome_update (a : Alpha) (event : MarketEvent) :
    (Estimator.update a event).outcome = a.update event := rfl

theorem binningOf_snd (a : Alpha) : (binningOf a).2 = a := by
  unfold binningOf
  split <;> rfl

section

variable {P : Alpha → Prop}

theorem closed_feed (hP : Alpha.Closed P) (hc : P c.slot.estimator) (event : MarketEvent) :
    P (c.feed event).2.slot.estimator := by
  rw [slot_feed]
  split
  · exact hc
  · rw [Registry.estimator_absorb, outcome_update]
    exact hP.update hc event

/-- Calls through a slot keep a property of the estimator if they do by themselves. -/
theorem closed_through {β : Type} (hc : P c.slot.estimator) {call : Alpha → Except Fault β × Alpha}
    (hcall : P (call c.slot.estimator).2) : P (c.through call).2.slot.estimator := by
  show P (c.slot.guarded call).2.estimator
  unfold Slot.guarded
  split
  · exact hc
  · rw [Registry.estimator_absorb]
    exact hcall

/-- What every call on an estimator keeps, everything keeps that concerns its cell. -/
theorem closed_respond (hP : Alpha.Closed P) (hc : P c.slot.estimator) (k : Concern) :
    P (c.respond k).2.slot.estimator := by
  cases k with
  | event event =>
      show P (c.offer event).2.slot.estimator
      unfold offer
      split
      · exact closed_feed hP hc event
      · exact hc
  | touch t =>
      cases t with
      | update event =>
          show P (c.update event).2.slot.estimator
          unfold Cell.update
          split
          · exact hc
          · split
            · exact hc
            · exact closed_feed hP hc event
      | reset => exact hP.reset hc
      | rebase => exact closed_through hc (hP.rebase hc)
      | referenceBinning => exact closed_through hc (by rw [binningOf_snd]; exact hc)
      | installReference counts =>
          show P (c.through (Alpha.installReference · counts)).2.slot.estimator
          exact closed_through hc (hP.installReference hc counts)
      | latest => exact hc

end

/-! ### Failures -/

/-- Feeding an event that is refused leaves the cell as it was, unless a test has
failed. -/
theorem feed_error (hs : c.Sound) {error : EngineError} (hf : c.feed event = (.error error, c')) :
    c' = c ∨ Broken event c c' := by
  unfold Cell.feed at hf
  rw [outcome_update] at hf
  split at hf
  · cases hf
    exact .inl rfl
  · next hd =>
      have hd' : c.slot.disabled = false := by simpa using hd
      cases ha : c.slot.estimator.update event with
      | mk result a =>
          rw [ha] at hf
          cases result with
          | ok reading => cases hf
          | error fault =>
              have herror := Alpha.update_error hs ha
              cases fault with
              | refused error =>
                  cases hf
                  rcases herror with ⟨rfl, _⟩ | ⟨hfails, hfailed, hdis⟩
                  · exact .inl rfl
                  · exact .inr ⟨⟨hd', hfails⟩, ⟨_, hfailed⟩, .inr (hdis ⟨error, rfl⟩), rfl, rfl⟩
              | panicked panic =>
                  cases hf
                  rcases herror with ⟨_, _, hrefused⟩ | ⟨hfails, hfailed, _⟩
                  · cases hrefused
                  · exact .inr ⟨⟨hd', hfails⟩, ⟨_, hfailed⟩, .inl rfl, rfl, rfl⟩

/-- A call through a slot that is refused leaves the cell as it was if it leaves
the estimator as it was. -/
theorem through_error {β : Type} {call : Alpha → Except Fault β × Alpha} {f : β → Registry.Reply}
    {fault : Fault}
    (hcall : ∀ fault a, call c.slot.estimator = (.error fault, a) →
      a = c.slot.estimator ∧ ∃ error, fault = .refused error)
    (ht : (c.through call).map (Registry.answer f) id = (.error fault, c')) : c' = c := by
  unfold Cell.through Slot.guarded at ht
  split at ht
  · cases ht
    rfl
  · cases ha : call c.slot.estimator with
    | mk result a =>
        rw [ha] at ht
        cases result with
        | ok x => cases ht
        | error fault =>
            obtain ⟨rfl, refusal, rfl⟩ := hcall fault a ha
            cases ht
            rfl

theorem binningOf_error {a a' : Alpha} {fault : Fault} (hb : binningOf a = (.error fault, a')) :
    a' = a ∧ ∃ error, fault = .refused error := by
  cases a with
  | klRegime e => cases hb
  | garch e =>
      cases hb
      exact ⟨rfl, _, rfl⟩
  | ofi e =>
      cases hb
      exact ⟨rfl, _, rfl⟩

/-- A call on an estimator that is refused leaves the cell as it was, unless the
call is an update and a test has failed. -/
theorem act_error (hs : c.Sound) {t : Touch} {fault : Fault} (ha : c.act t = (.error fault, c')) :
    c' = c ∨ ∃ event, t = .update event ∧ event.instrumentId = c.slot.instrumentId ∧
      c.slot.accepts event = true ∧ Broken event c c' := by
  cases t with
  | update event =>
      have hu : (c.update event).map (Registry.answer .output) id = (.error fault, c') := ha
      unfold Cell.update at hu
      split at hu
      · cases hu
        exact .inl rfl
      · next hi =>
          split at hu
          · cases hu
            exact .inl rfl
          · next haccepts =>
              cases hf : c.feed event with
              | mk result d =>
                  rw [hf] at hu
                  cases result with
                  | ok o => cases hu
                  | error error =>
                      cases hu
                      rcases feed_error hs hf with rfl | hbroken
                      · exact .inl rfl
                      · exact .inr ⟨event, rfl, not_not.mp hi, by simpa using haccepts, hbroken⟩
  | reset => cases ha
  | rebase =>
      have hr : (c.through Alpha.rebase).map (Registry.answer fun _ => .done) id =
        (.error fault, c') := ha
      exact .inl (through_error (fun _ _ => Alpha.rebase_error) hr)
  | referenceBinning =>
      have hr : (c.through binningOf).map (Registry.answer .binning) id = (.error fault, c') := ha
      exact .inl (through_error (fun _ _ => binningOf_error) hr)
  | installReference counts =>
      have hr : (c.through (Alpha.installReference · counts)).map (Registry.answer fun _ => .done)
        id = (.error fault, c') := ha
      exact .inl (through_error (fun _ _ => Alpha.installReference_error) hr)
  | latest => cases ha

/-! ### Disabled estimators -/

theorem feed_of_isDisabled (hd : c.IsDisabled) (event : MarketEvent) :
    ∃ error, c.feed event = (.error error, c) := by
  unfold Cell.feed
  by_cases hs : c.slot.disabled = true
  · exact ⟨_, if_pos hs⟩
  · have ha : c.slot.estimator.isDisabled = true := hd.resolve_left hs
    obtain ⟨error, hu⟩ := Alpha.update_of_isDisabled ha event
    rw [if_neg hs, outcome_update, hu]
    exact ⟨error, rfl⟩

theorem through_of_isDisabled {β : Type} (hd : c.IsDisabled) {call : Alpha → Except Fault β × Alpha}
    (hcall : c.slot.estimator.isDisabled = true →
      ∃ error, call c.slot.estimator = (.error (.refused error), c.slot.estimator)) :
    ∃ error, c.through call = (.error error, c) := by
  unfold Cell.through Slot.guarded
  by_cases hs : c.slot.disabled = true
  · rw [if_pos hs]
    exact ⟨_, rfl⟩
  · obtain ⟨error, ha⟩ := hcall (hd.resolve_left hs)
    rw [if_neg hs, ha]
    exact ⟨error, rfl⟩

/-- Calls that need the state of an estimator are refused while it is disabled. -/
theorem act_of_isDisabled (hd : c.IsDisabled) {t : Touch}
    (ht : (∃ event, t = .update event) ∨ t = .rebase ∨ ∃ counts, t = .installReference counts) :
    ∃ fault, c.act t = (.error fault, c) := by
  rcases ht with ⟨event, rfl⟩ | rfl | ⟨counts, rfl⟩
  · show ∃ fault, (c.update event).map (Registry.answer .output) id = (.error fault, c)
    unfold Cell.update
    split
    · exact ⟨_, rfl⟩
    · split
      · exact ⟨_, rfl⟩
      · obtain ⟨error, hf⟩ := feed_of_isDisabled hd event
        rw [hf]
        exact ⟨_, rfl⟩
  · obtain ⟨error, hr⟩ := through_of_isDisabled hd Alpha.rebase_of_isDisabled
    show ∃ fault, (c.through Alpha.rebase).map (Registry.answer fun _ => .done) id =
      (.error fault, c)
    rw [hr]
    exact ⟨_, rfl⟩
  · obtain ⟨error, hi⟩ : ∃ error, c.through (Alpha.installReference · counts) =
        (.error error, c) :=
      through_of_isDisabled hd fun h => Alpha.installReference_of_isDisabled h counts
    show ∃ fault, (c.through (Alpha.installReference · counts)).map
      (Registry.answer fun _ => .done) id = (.error fault, c)
    rw [hi]
    exact ⟨_, rfl⟩

/-- Asking for the bins leaves a cell as it was. -/
theorem through_binningOf_snd (c : Cell Alpha) : (c.through binningOf).2 = c := by
  unfold Cell.through Slot.guarded
  split
  · rfl
  · cases ha : c.slot.estimator with
    | garch e =>
        show { c with slot := { c.slot with estimator := Alpha.garch e } } = c
        rw [← ha]
    | klRegime e =>
        show { c with slot := { c.slot with estimator := Alpha.klRegime e } } = c
        rw [← ha]
    | ofi e =>
        show { c with slot := { c.slot with estimator := Alpha.ofi e } } = c
        rw [← ha]

/-- A reset succeeds, and the estimator is no longer disabled. -/
theorem act_reset (c : Cell Alpha) :
    ∃ d, c.act .reset = (.ok .done, d) ∧ ¬ d.IsDisabled := by
  refine ⟨_, rfl, ?_⟩
  rintro (hs | ha)
  · cases hs
  · have hreset := Alpha.isDisabled_reset c.slot.estimator
    exact Bool.false_ne_true (hreset.symm.trans ha)

end Cell

namespace Registry

variable {r r' : Registry Alpha} {g h : Handle} {c : Cell Alpha} {call : Call Alpha}
  {event : MarketEvent}

/-! ## Registries of the engine's estimators -/

/-- A call registers an estimator, if it succeeds. -/
def Call.Brings (a : Alpha) : Call Alpha → Prop
  | .register _ _ config => config.build = .ok a
  | .registerEstimator _ _ alpha => alpha = a
  | _ => False

/-- Every estimator that is registered comes out of settings. -/
def Call.Stock : Call Alpha → Prop
  | .registerEstimator _ _ alpha => ∃ config, AlphaConfig.build config = .ok alpha
  | _ => True

theorem Call.Stock.sound_of_brings (hstock : call.Stock) {a : Alpha} (ha : call.Brings a) :
    a.Sound := by
  cases call with
  | register alphaId i config => exact Alpha.sound_of_build ha
  | registerEstimator alphaId i alpha =>
      obtain rfl : alpha = a := ha
      obtain ⟨config, hbuild⟩ := hstock
      exact Alpha.sound_of_build hbuild
  | _ => cases ha

/-- A well-formed registry of sound estimators. -/
structure Sound (r : Registry Alpha) : Prop where
  wellFormed : r.WellFormed
  cell : ∀ h c, r.cell? h = some c → c.Sound

theorem empty_sound : (empty : Registry Alpha).Sound where
  wellFormed := empty_logged.wellFormed
  cell := by simp [cell?, empty]

/-- A registration brings one cell in, with the estimator that was registered. -/
theorem cell?_of_registerEstimator (wf : r.WellFormed) {alphaId : AlphaId} {i : InstrumentId}
    {alpha : Alpha} (hr : r.registerEstimator alphaId i alpha = .ok (g, r'))
    (hc : r'.cell? h = some c) : r.cell? h = some c ∨ c.slot.estimator = alpha := by
  have he := enrols_registerEstimator hr
  obtain ⟨s, _, hins⟩ := he.inserted
  by_cases hgh : h = g
  · obtain ⟨s', hs', hcell⟩ := cell?_registerEstimator wf hr
    rw [hgh, hcell] at hc
    cases hc
    exact .inr (slot_of_eq_ok hs').2.2
  · left
    obtain ⟨ht, hl⟩ := cell?_eq_some_iff.mp hc
    rw [wf.arena.get?_insert hins, if_neg hgh] at ht
    rw [he.latest_eq] at hl
    exact cell?_eq_some_iff.mpr ⟨ht, hl⟩

/-- A cell comes from the one before: the slot has stayed, or it is what the cell
before leaves when it responds. -/
def Follows (r : Registry Alpha) (h : Handle) (c : Cell Alpha) : Prop :=
  ∃ d, r.cell? h = some d ∧ (c.slot = d.slot ∨ ∃ k, c = (d.respond k).2)

theorem follows_of_eq (hc : r.cell? h = some c) : r.Follows h c := ⟨c, hc, .inl rfl⟩

theorem follows_touch {t : Touch} (hc : (r.perform (t.on g)).2.cell? h = some c) :
    r.Follows h c := by
  by_cases hgh : h = g
  · subst hgh
    cases hd : r.cell? h with
    | none =>
        rw [perform_touch_stale hd, hd] at hc
        cases hc
    | some d =>
        rw [perform_touch hd, cell?_put hd, if_pos rfl] at hc
        cases hc
        exact ⟨d, hd, .inr ⟨.touch t, rfl⟩⟩
  · rw [cell?_touch_of_ne r hgh t] at hc
    exact follows_of_eq hc

theorem follows_dispatch (wf : r.WellFormed) (hc : (r.dispatch event).registry.cell? h = some c) :
    r.Follows h c := by
  obtain ⟨s, hs, _⟩ := (changes_dispatch r event).narrows.get? h _ (cell?_eq_some_iff.mp hc).1
  have hd : r.cell? h = some ⟨s, r.latest[h]?⟩ := cell?_eq_some_iff.mpr ⟨hs, rfl⟩
  by_cases hi : event.instrumentId = s.instrumentId
  · have hcell := (cell?_dispatch wf hd hi).2
    rw [hc] at hcell
    exact ⟨_, hd, .inr ⟨.event event, Option.some.inj hcell⟩⟩
  · rw [cell?_dispatch_of_ne wf hd hi] at hc
    exact follows_of_eq (hd.trans hc)

theorem follows_deregister (hr : r.deregister g = .ok r') (hc : r'.cell? h = some c) :
    r.Follows h c := by
  by_cases hgh : h = g
  · subst hgh
    rw [cell?_deregister_self hr] at hc
    cases hc
  · rw [cell?_deregister hr hgh] at hc
    exact follows_of_eq hc

theorem follows_clearInOrder {order : List Handle}
    (hc : (r.clearInOrder order).cell? h = some c) : r.Follows h c := by
  have hs := (cell?_eq_some_iff.mp hc).1
  rw [get?_clearInOrder] at hs
  split at hs
  · cases hs
  · exact ⟨⟨c.slot, r.latest[h]?⟩, cell?_eq_some_iff.mpr ⟨hs, rfl⟩, .inl rfl⟩

/-- What a call leaves in a cell comes from the cell before, or it is the estimator
that the call registers. -/
theorem cell?_of_perform (wf : r.WellFormed) {a : Answer} (hp : r.perform call = (a, r'))
    (hc : r'.cell? h = some c) :
    r.Follows h c ∨ call.Brings c.slot.estimator := by
  cases htouch : call.touch? with
  | some p =>
      have hcall : call = p.2.on p.1 := Call.eq_of_touch? htouch
      subst hcall
      have hleft : (r.perform (p.2.on p.1)).2.cell? h = some c := by rw [hp, hc]
      exact .inl (follows_touch hleft)
  | none =>
      cases call with
      | update | reset | rebase | referenceBinning | installReference | latest => cases htouch
      | register alphaId i config =>
          rcases enrolled_eq hp with ⟨g, hreg, _⟩ | ⟨_, _, _, rfl⟩
          · obtain ⟨alpha, hbuild, hreg⟩ := bind_eq_ok_iff.mp hreg
            rcases cell?_of_registerEstimator wf hreg hc with hold | hnew
            · exact .inl (follows_of_eq hold)
            · rw [hnew]
              exact .inr (mapError_eq_ok_iff.mp hbuild)
          · exact .inl (follows_of_eq hc)
      | registerEstimator alphaId i alpha =>
          rcases enrolled_eq hp with ⟨g, hreg, _⟩ | ⟨_, _, _, rfl⟩
          · rcases cell?_of_registerEstimator wf hreg hc with hold | hnew
            · exact .inl (follows_of_eq hold)
            · rw [hnew]
              exact .inr rfl
          · exact .inl (follows_of_eq hc)
      | deregister g =>
          rcases removed_eq hp with ⟨hd, _⟩ | ⟨_, _, _, rfl⟩
          · exact .inl (follows_deregister hd hc)
          · exact .inl (follows_of_eq hc)
      | clear order =>
          cases hp
          exact .inl (follows_clearInOrder hc)
      | dispatch event =>
          cases hp
          exact .inl (follows_dispatch wf hc)

/-- The estimators of a registry have a property. -/
def All (P : Alpha → Prop) (r : Registry Alpha) : Prop :=
  ∀ h c, r.cell? h = some c → P c.slot.estimator

/-- What every call on an estimator keeps, the estimators of a registry have if those that
are registered do. -/
theorem All.perform {P : Alpha → Prop} (hall : r.All P) (hP : Alpha.Closed P)
    (wf : r.WellFormed) (hnew : ∀ a, call.Brings a → P a) {a : Answer}
    (hp : r.perform call = (a, r')) : r'.All P := by
  intro h c hc
  rcases cell?_of_perform wf hp hc with ⟨d, hd, hslot | ⟨k, rfl⟩⟩ | hbrings
  · rw [hslot]
    exact hall h d hd
  · exact Cell.closed_respond hP (hall h d hd) k
  · exact hnew _ hbrings

theorem All.run {P : Alpha → Prop} (hall : r.All P) (hP : Alpha.Closed P) (wf : r.WellFormed)
    {steps : List (Step Alpha)} (hr : Run r steps r')
    (hnew : ∀ step ∈ steps, ∀ a, step.call.Brings a → P a) : r'.All P := by
  induction hr with
  | nil => exact hall
  | @cons r r₁ r₂ call a rest _ performed _ ih =>
      have hall₁ := hall.perform hP wf (hnew _ List.mem_cons_self) performed
      exact ih hall₁ (perform_wellFormed wf performed) fun step hm =>
        hnew step (List.mem_cons_of_mem _ hm)

theorem Sound.perform (hs : r.Sound) (hstock : call.Stock) {a : Answer}
    (hp : r.perform call = (a, r')) : r'.Sound where
  wellFormed := perform_wellFormed hs.wellFormed hp
  cell := All.perform (P := Alpha.Sound) hs.cell Alpha.closed_sound hs.wellFormed
    (fun _ => hstock.sound_of_brings) hp

theorem Sound.run {steps : List (Step Alpha)} (hs : r.Sound) (hr : Run r steps r')
    (hstock : ∀ step ∈ steps, step.call.Stock) : r'.Sound := by
  induction hr with
  | nil => exact hs
  | @cons r r₁ r₂ call a rest _ performed _ ih =>
      have hs₁ := hs.perform (hstock _ List.mem_cons_self) performed
      exact ih hs₁ fun step hm => hstock step (List.mem_cons_of_mem _ hm)

/-! ## Failed calls -/

end Registry

end MarketSignals
