import MarketSignals.Proofs.Registry.Consistency
import MarketSignals.Proofs.Registry.Delivery

/-!
# Estimators do not interfere

What an estimator gives depends on the estimator and on what concerns it: the
calls on it and the events dispatched on its instrument.  Other registrations
come and go, are updated, fail and break off without being seen.

A cell by itself says what an estimator gives (`Cell.replay`).  Every run of the
registry shows the same, whatever the calls in between.

## Main definitions

* `Concern`, `Result` — what concerns a registration, and what comes of it.
* `concerns`, `observed` — both in the course of a run.
* `Life` — the steps from a registration up to its removal at most.

## Main results

* `perform_concern` — one call.
* `observed_eq_replay` — a whole run.
* `estimators_isolated` — two runs with the same concerns, and calls that may be
  exchanged.
-/

namespace MarketSignals

variable {ε : Type}

/-! ## What concerns one registration -/

/-- What concerns a registration: a call on its estimator, or an event dispatched
on its instrument. -/
inductive Concern where
  | touch (t : Touch)
  | event (event : MarketEvent)

/-- What a registration gives for it: the answer to the call, or its part in the
dispatch. -/
inductive Result where
  | answer (a : Registry.Answer)
  | part (p : Option (Except EngineError SignalOutput))

namespace Cell

variable [Estimator ε]

/-- What a cell gives, and the cell it leaves. -/
def respond (c : Cell ε) : Concern → Result × Cell ε
  | .touch t => (c.act t).map .answer id
  | .event event => (c.offer event).map .part id

/-- What a cell gives for one thing after the other. -/
def replay (c : Cell ε) : List Concern → List (Concern × Result)
  | [] => []
  | k :: rest => (k, (c.respond k).1) :: (c.respond k).2.replay rest

theorem key_respond (c : Cell ε) (k : Concern) : (c.respond k).2.slot.key = c.slot.key := by
  cases k with
  | touch t => exact key_act c t
  | event event => exact key_offer c event

end Cell

namespace Registry

/-- The handle that a call points to, and what it does there. -/
def Call.touch? : Call ε → Option (Handle × Touch)
  | .update h event => some (h, .update event)
  | .reset h => some (h, .reset)
  | .rebase h => some (h, .rebase)
  | .referenceBinning h => some (h, .referenceBinning)
  | .installReference h counts => some (h, .installReference counts)
  | .latest h => some (h, .latest)
  | _ => none

theorem Call.eq_of_touch? {call : Call ε} {h : Handle} {t : Touch}
    (ht : call.touch? = some (h, t)) : call = t.on h := by
  cases call <;> cases ht <;> rfl

/-- What a call is to the registration of a handle on an instrument, if it
concerns it. -/
def Call.concern? (h : Handle) (i : InstrumentId) (call : Call ε) : Option Concern :=
  match call with
  | .dispatch event => if event.instrumentId = i then some (.event event) else none
  | call => call.touch?.bind fun p => if p.1 = h then some (.touch p.2) else none

/-- What the answer to a call says about the registration of a handle. -/
def Step.result (h : Handle) (alphaId : AlphaId) (step : Step ε) : Result :=
  match step.call, step.answer with
  | .dispatch _, .ok (.report d) => .part (d.about h alphaId)
  | _, a => .answer a

/-- What concerned a registration in the course of a run. -/
def concerns (h : Handle) (i : InstrumentId) (steps : List (Step ε)) : List Concern :=
  steps.filterMap (·.call.concern? h i)

/-- The same, with what came of it. -/
def observed (h : Handle) (alphaId : AlphaId) (i : InstrumentId) (steps : List (Step ε)) :
    List (Concern × Result) :=
  steps.filterMap fun step => (step.call.concern? h i).map (·, step.result h alphaId)

/-- A call that takes a registration away, or all of them. -/
def Call.Removes (h : Handle) : Call ε → Prop
  | .deregister g => g = h
  | .clear _ => True
  | _ => False

variable {r r' : Registry ε} {g h : Handle} {c d : Cell ε}

/-! ## One call -/

/-- A new registration leaves the other cells alone. -/
theorem cell?_enrols (wf : r.WellFormed) (he : Enrols r g r') (hc : r.cell? h = some c) :
    r'.cell? h = some c := by
  obtain ⟨s, _, hins⟩ := he.inserted
  obtain ⟨hs, hl⟩ := cell?_eq_some_iff.mp hc
  have hstale := wf.arena.get?_eq_none_of_insert hins
  have hne : h ≠ g := by
    rintro rfl
    rw [hstale] at hs
    cases hs
  refine cell?_eq_some_iff.mpr ⟨?_, by rw [he.latest_eq, hl]⟩
  rw [wf.arena.get?_insert hins, if_neg hne, hs]

/-- A removal leaves the other cells alone. -/
theorem cell?_deregister (hd : r.deregister g = .ok r') (hne : h ≠ g) :
    r'.cell? h = r.cell? h := by
  unfold Registry.deregister at hd
  split at hd
  · next s arena hr =>
      cases hd
      unfold cell?
      simp only [Arena.get?_remove? hr, if_neg hne, Std.ExtHashMap.getElem?_erase, beq_iff_eq,
        if_neg (Ne.symm hne)]
  · cases hd

theorem cell?_deregister_self (hd : r.deregister h = .ok r') : r'.cell? h = none := by
  unfold Registry.deregister at hd
  split at hd
  · next s arena hr =>
      cases hd
      simp [cell?, Arena.get?_remove? hr]
  · cases hd

/-- A call on another estimator leaves a cell alone. -/
theorem cell?_touch_of_ne [AlphaHost ε] [Solitary ε] (r : Registry ε) (hne : h ≠ g) (t : Touch) :
    (r.perform (t.on g)).2.cell? h = r.cell? h := by
  cases hg : r.cell? g with
  | none => rw [perform_touch_stale hg]
  | some d => rw [perform_touch hg, cell?_put hg, if_neg hne]

/-- An event for another instrument leaves a cell alone. -/
theorem cell?_dispatch_of_ne [Estimator ε] [Solitary ε] (wf : r.WellFormed)
    (hc : r.cell? h = some c) {event : MarketEvent} (hne : event.instrumentId ≠ c.slot.instrumentId) :
    (r.dispatch event).registry.cell? h = some c := by
  have hh := holds_cellsOn wf event.instrumentId
  have hout : h ∉ (r.cellsOn event.instrumentId).map Prod.fst := by
    intro hm
    obtain ⟨⟨g, c'⟩, hin, rfl⟩ := List.mem_map.mp hm
    obtain ⟨hc', hi⟩ := (mem_cellsOn_iff wf).mp hin
    rw [hc] at hc'
    cases hc'
    exact hne hi.symm
  rw [(dispatch_eq wf event).2, cell?_putAll_of_notMem hh (map_fst_offerAll event _) hout, hc]

/-- An event for its instrument is offered to a cell. -/
theorem cell?_dispatch [Estimator ε] [Solitary ε] (wf : r.WellFormed) (hc : r.cell? h = some c)
    {event : MarketEvent} (hi : event.instrumentId = c.slot.instrumentId) :
    (r.dispatch event).report.about h c.slot.alphaId = (c.offer event).1 ∧
      (r.dispatch event).registry.cell? h = some (c.offer event).2 := by
  have hh := holds_cellsOn wf event.instrumentId
  have hm : (h, c) ∈ r.cellsOn event.instrumentId := (mem_cellsOn_iff wf).mpr ⟨hc, hi.symm⟩
  obtain ⟨hreport, hregistry⟩ := dispatch_eq wf event
  constructor
  · rw [hreport]
    exact about_reportOn hh.nodup (names_cellsOn_nodup wf _) hm
  · rw [hregistry]
    exact cell?_putAll_of_mem hh (map_fst_offerAll event _) (List.mem_map.mpr ⟨_, hm, rfl⟩)

/-- A call that concerns a registration is answered from its cell; every other
call leaves the cell alone. -/
theorem perform_concern [AlphaHost ε] [Solitary ε] (wf : r.WellFormed) (hc : r.cell? h = some c)
    {call : Call ε} {a : Answer} (hp : r.perform call = (a, r')) (hkept : ¬ call.Removes h) :
    match call.concern? h c.slot.instrumentId with
    | some k => (Step.mk call a).result h c.slot.alphaId = (c.respond k).1 ∧
        r'.cell? h = some (c.respond k).2
    | none => r'.cell? h = some c := by
  cases htouch : call.touch? with
  | some p =>
      obtain ⟨g, t⟩ := p
      have hcall := Call.eq_of_touch? htouch
      subst hcall
      by_cases hgh : g = h
      · subst hgh
        rw [perform_touch hc] at hp
        cases hp
        have hconcern : (t.on g : Call ε).concern? g c.slot.instrumentId = some (.touch t) := by
          cases t <;> simp [Call.concern?, Call.touch?, Touch.on]
        rw [hconcern]
        refine ⟨?_, by rw [cell?_put hc, if_pos rfl]; rfl⟩
        cases t <;> rfl
      · have hconcern : (t.on g : Call ε).concern? h c.slot.instrumentId = none := by
          cases t <;> simp [Call.concern?, Call.touch?, Touch.on, hgh]
        rw [hconcern]
        have hcell := cell?_touch_of_ne r (Ne.symm hgh) t
        rw [hp] at hcell
        exact hcell.trans hc
  | none =>
      cases call with
      | update | reset | rebase | referenceBinning | installReference | latest => cases htouch
      | clear order => exact absurd trivial hkept
      | register alphaId instrumentId config =>
          rcases enrolled_eq hp with ⟨g, hreg, _⟩ | ⟨fault, _, _, rfl⟩
          · exact cell?_enrols wf (enrols_register hreg) hc
          · exact hc
      | registerEstimator alphaId instrumentId estimator =>
          rcases enrolled_eq hp with ⟨g, hreg, _⟩ | ⟨fault, _, _, rfl⟩
          · exact cell?_enrols wf (enrols_registerEstimator hreg) hc
          · exact hc
      | deregister g =>
          rcases removed_eq hp with ⟨hd, _⟩ | ⟨error, _, _, rfl⟩
          · exact (cell?_deregister hd (Ne.symm hkept)).trans hc
          · exact hc
      | dispatch event =>
          cases hp
          by_cases hi : event.instrumentId = c.slot.instrumentId
          · obtain ⟨habout, hcell⟩ := cell?_dispatch wf hc hi
            simp only [Call.concern?, if_pos hi]
            exact ⟨congrArg Result.part habout, hcell⟩
          · simp only [Call.concern?, if_neg hi]
            exact cell?_dispatch_of_ne wf hc hi

/-! ## Runs -/

/-- While it is registered, an estimator gives what its cell gives by itself for
the things that concern it, whatever else happens in between. -/
theorem observed_eq_replay [AlphaHost ε] [Solitary ε] {steps : List (Step ε)}
    (wf : r.WellFormed) (hr : Run r steps r') (hc : r.cell? h = some c)
    (hkept : ∀ step ∈ steps, ¬ step.call.Removes h) :
    observed h c.slot.alphaId c.slot.instrumentId steps =
      c.replay (concerns h c.slot.instrumentId steps) := by
  induction hr generalizing c with
  | nil => rfl
  | @cons r r₁ r₂ call a rest _ performed _ ih =>
      have wf₁ := perform_wellFormed wf performed
      have hrest : ∀ step ∈ rest, ¬ step.call.Removes h :=
        fun step hm => hkept step (List.mem_cons_of_mem _ hm)
      have hcell := perform_concern wf hc performed (hkept _ List.mem_cons_self)
      simp only [observed, concerns, List.filterMap_cons] at ih ⊢
      cases hk : call.concern? h c.slot.instrumentId with
      | none =>
          simp only [hk] at hcell
          simp only [Option.map_none]
          exact ih wf₁ hcell hrest
      | some k =>
          simp only [hk] at hcell
          have hkey := Cell.key_respond c k
          have halpha : (c.respond k).2.slot.alphaId = c.slot.alphaId :=
            congrArg SlotKey.alphaId hkey
          have hinstrument : (c.respond k).2.slot.instrumentId = c.slot.instrumentId :=
            congrArg SlotKey.instrumentId hkey
          have hreplay := ih wf₁ hcell.2 hrest
          rw [halpha, hinstrument] at hreplay
          simp only [Option.map_some, Cell.replay]
          rw [hreplay, hcell.1]

/-- A registration that succeeds, from an estimator or from settings. -/
def Registers [AlphaHost ε] (r : Registry ε) (alphaId : AlphaId) (i : InstrumentId)
    (estimator : ε) (h : Handle) (r' : Registry ε) : Prop :=
  r.registerEstimator alphaId i estimator = .ok (h, r') ∨
    ∃ config alpha, AlphaConfig.build config = .ok alpha ∧ AlphaHost.ofAlpha alpha = estimator ∧
      r.register alphaId i config = .ok (h, r')

/-- A new registration has the slot of its estimator and no output. -/
theorem cell?_registerEstimator [Estimator ε] (wf : r.WellFormed) {alphaId : AlphaId}
    {i : InstrumentId} {estimator : ε}
    (hr : r.registerEstimator alphaId i estimator = .ok (h, r')) :
    ∃ s, Slot.of alphaId i estimator = .ok s ∧ r'.cell? h = some ⟨s, none⟩ := by
  have he := enrols_registerEstimator hr
  obtain ⟨s', _, hins⟩ := he.inserted
  have hstale := wf.arena.get?_eq_none_of_insert hins
  have hnolatest : r'.latest[h]? = none := by
    rw [he.latest_eq]
    apply Std.ExtHashMap.getElem?_eq_none
    intro hm
    obtain ⟨t, ht⟩ := Arena.isLive_iff.mp (wf.latest_live h hm)
    rw [hstale] at ht
    cases ht
  unfold registerEstimator at hr
  obtain ⟨_, _, hr⟩ := bind_eq_ok_iff.mp hr
  split at hr
  · cases hr
  · obtain ⟨s, hs, hr⟩ := bind_eq_ok_iff.mp hr
    obtain ⟨⟨g, arena⟩, hins', hr⟩ := bind_eq_ok_iff.mp hr
    cases hr
    refine ⟨s, mapError_eq_ok_iff.mp hs, cell?_eq_some_iff.mpr ⟨?_, hnolatest⟩⟩
    rw [wf.arena.get?_insert (mapError_eq_ok_iff.mp hins'), if_pos rfl]

/-- The steps of a run from the registration of an estimator on, up to its removal
at most. -/
structure Life [AlphaHost ε] (alphaId : AlphaId) (i : InstrumentId) (estimator : ε) (h : Handle)
    (steps : List (Step ε)) : Prop where
  lived : ∃ before r r' r'', Run (.empty : Registry ε) before r ∧
    r.Registers alphaId i estimator h r' ∧ Run r' steps r''
  kept : ∀ step ∈ steps, ¬ step.call.Removes h

/-- What an estimator gives follows from the estimator and what concerns it. -/
theorem Life.observed_eq [AlphaHost ε] [Solitary ε] {alphaId : AlphaId} {i : InstrumentId}
    {estimator : ε} {steps : List (Step ε)} (hl : Life alphaId i estimator h steps) :
    ∃ s, Slot.of alphaId i estimator = .ok s ∧
      observed h alphaId i steps = Cell.replay ⟨s, none⟩ (concerns h i steps) := by
  obtain ⟨before, r, r', r'', hbefore, hreg, hrun⟩ := hl.lived
  have wf := (empty_logged.run hbefore).wellFormed
  have hreg' : r.registerEstimator alphaId i estimator = .ok (h, r') := by
    rcases hreg with hreg | ⟨config, alpha, hbuild, rfl, hreg⟩
    · exact hreg
    · unfold Registry.register at hreg
      rw [hbuild] at hreg
      exact hreg
  obtain ⟨s, hs, hcell⟩ := cell?_registerEstimator wf hreg'
  obtain ⟨rfl, rfl, _⟩ := slot_of_eq_ok hs
  have wf' := (enrols_registerEstimator hreg').wellFormed wf
  exact ⟨s, hs, observed_eq_replay wf' hrun hcell hl.kept⟩

/-! ## Calls that may be exchanged -/

/-- Two calls may be made in either order: the answers and the final registry are
the same. -/
def Commute [AlphaHost ε] (r : Registry ε) (c₁ c₂ : Call ε) : Prop :=
  ((r.perform c₂).2.perform c₁).1 = (r.perform c₁).1 ∧
    ((r.perform c₁).2.perform c₂).1 = (r.perform c₂).1 ∧
    ((r.perform c₁).2.perform c₂).2 = ((r.perform c₂).2.perform c₁).2

/-- Two calls that have no estimator in common: dispatches on different
instruments, or calls on the estimators of different handles. -/
inductive Independent : Call ε → Call ε → Prop
  | dispatch {e₁ e₂ : MarketEvent} (hne : e₁.instrumentId ≠ e₂.instrumentId) :
      Independent (.dispatch e₁) (.dispatch e₂)
  | touch {g h : Handle} (hne : g ≠ h) (t₁ t₂ : Touch) : Independent (t₁.on g) (t₂.on h)

theorem commute_touch [AlphaHost ε] [Solitary ε] (r : Registry ε) (hne : g ≠ h) (t₁ t₂ : Touch) :
    Commute r (t₁.on g) (t₂.on h) := by
  have hg := cell?_touch_of_ne r hne t₂
  have hh := cell?_touch_of_ne r (Ne.symm hne) t₁
  cases hcg : r.cell? g with
  | none =>
      rw [hcg] at hg
      simp only [Commute, perform_touch_stale hcg, perform_touch_stale hg, and_self]
  | some c =>
      rw [hcg] at hg
      cases hch : r.cell? h with
      | none =>
          rw [hch] at hh
          simp only [Commute, perform_touch_stale hch, perform_touch_stale hh, and_self]
      | some d =>
          rw [hch] at hh
          simp only [Commute, perform_touch hg, perform_touch hh]
          simp only [perform_touch hcg, perform_touch hch, true_and]
          exact put_comm r hne _ _

/-- A dispatch leaves the cells on other instruments alone. -/
theorem cellsOn_dispatch_of_ne [Estimator ε] [Solitary ε] (wf : r.WellFormed)
    {event : MarketEvent} {i : InstrumentId} (hne : event.instrumentId ≠ i) :
    (r.dispatch event).registry.cellsOn i = r.cellsOn i := by
  obtain ⟨_, hregistry⟩ := dispatch_eq wf event
  unfold cellsOn
  rw [hregistry, handlesOn_putAll, ← hregistry]
  apply List.filterMap_congr
  intro h hh
  obtain ⟨s, hs, rfl⟩ := (wf.arena.mem_handlesOn_iff i h).mp hh
  have hc : r.cell? h = some ⟨s, r.latest[h]?⟩ := cell?_eq_some_iff.mpr ⟨hs, rfl⟩
  rw [cell?_dispatch_of_ne wf hc hne, hc]

theorem commute_dispatch [AlphaHost ε] [Solitary ε] (wf : r.WellFormed) {e₁ e₂ : MarketEvent}
    (hne : e₁.instrumentId ≠ e₂.instrumentId) : Commute r (.dispatch e₁) (.dispatch e₂) := by
  have wf₁ : (r.dispatch e₁).registry.WellFormed := (changes_dispatch r e₁).wellFormed wf
  have wf₂ : (r.dispatch e₂).registry.WellFormed := (changes_dispatch r e₂).wellFormed wf
  have hcells₁ := cellsOn_dispatch_of_ne wf (Ne.symm hne)
  have hcells₂ := cellsOn_dispatch_of_ne wf hne
  obtain ⟨hreport₁, hregistry₁⟩ := dispatch_eq wf e₁
  obtain ⟨hreport₂, hregistry₂⟩ := dispatch_eq wf e₂
  obtain ⟨hreport₂₁, hregistry₂₁⟩ := dispatch_eq wf₂ e₁
  obtain ⟨hreport₁₂, hregistry₁₂⟩ := dispatch_eq wf₁ e₂
  rw [hcells₁] at hreport₂₁ hregistry₂₁
  rw [hcells₂] at hreport₁₂ hregistry₁₂
  have hok : ∀ {d d' : DispatchReport}, d = d' →
      (Except.ok (.report d) : Answer) = .ok (.report d') := fun heq => by rw [heq]
  refine ⟨hok (hreport₂₁.trans hreport₁.symm), hok (hreport₁₂.trans hreport₂.symm), ?_⟩
  · show ((r.dispatch e₁).registry.dispatch e₂).registry =
      ((r.dispatch e₂).registry.dispatch e₁).registry
    rw [hregistry₁₂, hregistry₂₁, hregistry₁, hregistry₂]
    apply putAll_comm
    intro g hg
    rw [map_fst_offerAll, map_fst_cellsOn wf] at hg ⊢
    intro hg'
    obtain ⟨s, hs, hi⟩ := (wf.arena.mem_handlesOn_iff _ g).mp hg
    obtain ⟨t, ht, hj⟩ := (wf.arena.mem_handlesOn_iff _ g).mp hg'
    rw [hs] at ht
    cases ht
    exact hne (hi.symm.trans hj)

/-- Estimators do not interfere.  What an estimator gives while it is registered
is the same in any two runs in which the same things concern it, and calls that
have no estimator in common may be exchanged. -/
theorem estimators_isolated [AlphaHost ε] [Solitary ε] :
    (∀ (alphaId : AlphaId) (i : InstrumentId) (estimator : ε) (g h : Handle)
        (steps more : List (Step ε)),
      Life alphaId i estimator g steps → Life alphaId i estimator h more →
        concerns g i steps = concerns h i more →
          observed g alphaId i steps = observed h alphaId i more) ∧
      ∀ (steps : List (Step ε)) (r : Registry ε), Run .empty steps r →
        ∀ c₁ c₂, Independent c₁ c₂ → Commute r c₁ c₂ := by
  constructor
  · intro alphaId i estimator g h steps more hg hh hsame
    obtain ⟨s, hs, hobserved⟩ := hg.observed_eq
    obtain ⟨t, ht, hobserved'⟩ := hh.observed_eq
    rw [hs] at ht
    cases ht
    rw [hobserved, hobserved', hsame]
  · intro steps r hr c₁ c₂ hind
    cases hind with
    | dispatch hne => exact commute_dispatch (empty_logged.run hr).wellFormed hne
    | touch hne t₁ t₂ => exact commute_touch r hne t₁ t₂

/-- An estimator of the engine can be registered in the empty registry. -/
theorem registerEstimator_empty (alphaId : AlphaId) (i : InstrumentId) (alpha : Alpha) :
    ∃ r', (empty : Registry Alpha).registerEstimator alphaId i alpha = .ok (⟨0, 0⟩, r') := by
  have hfree : (empty : Registry Alpha).arena.byKey.contains ⟨alphaId, i⟩ = false := by
    simp [empty, Arena.empty]
  unfold registerEstimator
  rw [hfree]
  exact ⟨_, rfl⟩

/-- Any calls that do not remove it may follow the first registration. -/
theorem exists_life (alphaId : AlphaId) (i : InstrumentId) (alpha : Alpha)
    (calls : List (Call Alpha)) (hc : ∀ c ∈ calls, ¬ c.Removes ⟨0, 0⟩) :
    ∃ steps, Life alphaId i alpha ⟨0, 0⟩ steps ∧ steps.map (·.call) = calls := by
  obtain ⟨r, hr⟩ := registerEstimator_empty alphaId i alpha
  have hcalls : (r.performAll calls).1.map (·.call) = calls := map_call_performAll r calls
  have hclear : ∀ order, .clear order ∉ calls := fun order hm => hc _ hm trivial
  refine ⟨(r.performAll calls).1, ⟨⟨[], empty, r, _, .nil _, .inl hr, run_performAll r hclear⟩, ?_⟩,
    hcalls⟩
  intro step hm
  apply hc
  rw [← hcalls]
  exact List.mem_map_of_mem hm

/-- A quote with the given size on the bid side. -/
def quote (name : String) (bidSize : Float) : MarketEvent :=
  ⟨⟨1⟩, ⟨name⟩, 99, bidSize, 101, 5, none⟩

/-- Calls that all concern the first registration on `X`. -/
def quietCalls : List (Call Alpha) :=
  [.update ⟨0, 0⟩ (quote "X" 10), .dispatch (quote "X" 12), .dispatch (quote "X" (0 / 0)),
    .latest ⟨0, 0⟩]

/-- The same with others in between: a second estimator on the instrument is fed,
fails, is reset and removed. -/
def busyCalls : List (Call Alpha) :=
  [.register ⟨"b"⟩ ⟨"X"⟩ (.ofi { marketCap := 3 }), .update ⟨0, 0⟩ (quote "X" 10),
    .update ⟨1, 0⟩ (quote "X" (-1)), .dispatch (quote "Y" 7), .dispatch (quote "X" 12),
    .reset ⟨1, 0⟩, .dispatch (quote "X" (0 / 0)), .deregister ⟨1, 0⟩, .latest ⟨0, 0⟩]

theorem estimators_isolated_busy :
    (∃ steps more : List (Step Alpha),
      steps.map (·.call) = quietCalls ∧ more.map (·.call) = busyCalls ∧
        observed ⟨0, 0⟩ ⟨"a"⟩ ⟨"X"⟩ steps = observed ⟨0, 0⟩ ⟨"a"⟩ ⟨"X"⟩ more) ∧
      Commute ((empty : Registry Alpha).performAll busyCalls).2 (.dispatch (quote "X" 3))
        (.dispatch (quote "Y" 4)) := by
  constructor
  · obtain ⟨steps, hlife, hquiet⟩ := exists_life ⟨"a"⟩ ⟨"X"⟩ (.ofi (.start 1 .manual)) quietCalls
      (by simp [quietCalls, Call.Removes])
    obtain ⟨more, hlife', hbusy⟩ := exists_life ⟨"a"⟩ ⟨"X"⟩ (.ofi (.start 1 .manual)) busyCalls
      (by simp [busyCalls, Call.Removes])
    have hsame : concerns ⟨0, 0⟩ ⟨"X"⟩ steps = concerns ⟨0, 0⟩ ⟨"X"⟩ more := by
      have hquiet' : concerns ⟨0, 0⟩ ⟨"X"⟩ steps =
          quietCalls.filterMap (Call.concern? ⟨0, 0⟩ ⟨"X"⟩) := by
        rw [← hquiet, List.filterMap_map]
        rfl
      have hbusy' : concerns ⟨0, 0⟩ ⟨"X"⟩ more =
          busyCalls.filterMap (Call.concern? ⟨0, 0⟩ ⟨"X"⟩) := by
        rw [← hbusy, List.filterMap_map]
        rfl
      rw [hquiet', hbusy']
      rfl
    exact ⟨steps, more, hquiet, hbusy, estimators_isolated.1 _ _ _ _ _ _ _ hlife hlife' hsame⟩
  · exact estimators_isolated.2 _ _ (run_performAll _ (by simp [busyCalls])) _ _
      (.dispatch (by decide))

end Registry

end MarketSignals
