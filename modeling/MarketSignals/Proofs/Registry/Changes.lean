import Mathlib.Logic.Relation
import MarketSignals.Proofs.Outcome
import MarketSignals.Proofs.Registry.Run
import MarketSignals.Proofs.Registry.WellFormed

/-!
# What a call may change

Every call on a registry is a registration or a sequence of small changes: a slot
is replaced under its own names, a registration is removed, an output is kept or
forgotten.  An invariant of the registry is proved once for each small change and
once for a registration.

## Main definitions

* `Change`, `Changes` — the small changes, and sequences of them.
* `Enrols` — what a registration that succeeds has done.

## Main results

* `perform_cases` — every call is one or the other.
* `Changes.wellFormed`, `Enrols.wellFormed` — both keep a registry well formed.
* `Changes.narrows` — changes bring no new slot in.
-/

namespace MarketSignals.Registry

variable {ε : Type} {r r' : Registry ε} {g h : Handle} {s t : Slot ε}

/-! ## Changes other than registrations -/

/-- One change of a registry.  Every call but a registration is a sequence of
these. -/
inductive Change : Registry ε → Registry ε → Prop
  | store {r : Registry ε} {h : Handle} {s : Slot ε}
      (sameNames : ∀ t, r.arena.get? h = some t → s.key = t.key) : Change r (r.store h s)
  | remove {r : Registry ε} {h : Handle} {s : Slot ε} {arena : Arena ε}
      (removed : r.arena.remove? h = some (s, arena)) : Change r ⟨arena, r.latest.erase h⟩
  | publish {r : Registry ε} {h : Handle} {o : SignalOutput} (live : r.arena.isLive h = true) :
      Change r { r with latest := r.latest.insert h o }
  | forget {r : Registry ε} {h : Handle} : Change r { r with latest := r.latest.erase h }
  | forgetAll {r : Registry ε} : Change r { r with latest := ∅ }

/-- Changes one after the other. -/
abbrev Changes : Registry ε → Registry ε → Prop := Relation.ReflTransGen Change

/-- The arena is well formed and only live handles have an output. -/
structure WellFormed (r : Registry ε) : Prop where
  arena : r.arena.WellFormed
  latest_live : ∀ h, h ∈ r.latest → r.arena.isLive h = true

/-- Every slot of the new registry was there under the same names, and lists of
handles lose members only. -/
structure Narrows (r r' : Registry ε) : Prop where
  get? : ∀ h t, r'.arena.get? h = some t → ∃ s, r.arena.get? h = some s ∧ t.key = s.key
  handlesOn : ∀ i, (r'.handlesOn i).Sublist (r.handlesOn i)

/-- Outputs are not part of the comparison. -/
theorem Narrows.of_arena_eq (ha : r'.arena = r.arena) : Narrows r r' where
  get? := fun _ t ht => ⟨t, ha ▸ ht, rfl⟩
  handlesOn := fun i => by
    simp only [Registry.handlesOn, ha]
    exact .refl _

theorem Narrows.trans {r'' : Registry ε} (h₁ : Narrows r r') (h₂ : Narrows r' r'') :
    Narrows r r'' where
  get? := by
    intro h t ht
    obtain ⟨s, hs, hts⟩ := h₂.get? h t ht
    obtain ⟨s', hs', hss⟩ := h₁.get? h s hs
    exact ⟨s', hs', hts.trans hss⟩
  handlesOn := fun i => (h₂.handlesOn i).trans (h₁.handlesOn i)

theorem Change.narrows (hc : Change r r') : Narrows r r' := by
  cases hc with
  | store sameNames =>
      refine ⟨?_, fun i => ?_⟩
      · intro g t ht
        simp only [Registry.store, Arena.get?_store] at ht
        split at ht
        · next hgl =>
            obtain ⟨rfl, hl⟩ := hgl
            obtain ⟨s', hs'⟩ := Arena.isLive_iff.mp hl
            cases ht
            exact ⟨s', hs', sameNames s' hs'⟩
        · exact ⟨t, ht, rfl⟩
      · simp [Registry.handlesOn, Registry.store, Arena.handlesOn]
  | remove removed =>
      refine ⟨?_, fun i => ?_⟩
      · intro g t ht
        simp only [Arena.get?_remove? removed] at ht
        split at ht
        · cases ht
        · exact ⟨t, ht, rfl⟩
      · obtain ⟨_, rfl⟩ := Arena.remove?_eq_some_iff.mp removed
        simp only [Registry.handlesOn, Arena.handlesOn_unlink]
        split
        · exact List.filter_sublist
        · exact .refl _
  | publish | forget | forgetAll => exact .of_arena_eq rfl

theorem Changes.narrows (hc : Changes r r') : Narrows r r' := by
  induction hc with
  | refl => exact .of_arena_eq rfl
  | tail _ hstep ih => exact ih.trans hstep.narrows

theorem Change.wellFormed (hc : Change r r') (wf : r.WellFormed) : r'.WellFormed := by
  cases hc with
  | store sameNames =>
      refine ⟨wf.arena.store sameNames, fun g hg => ?_⟩
      simpa only [Registry.store, Arena.isLive_store] using wf.latest_live g hg
  | remove removed =>
      refine ⟨wf.arena.remove? removed, fun g hg => ?_⟩
      rw [Std.ExtHashMap.mem_erase] at hg
      have hne := (beq_eq_false_iff_ne.mp hg.1).symm
      simpa [Arena.isLive, Arena.get?_remove? removed, hne] using wf.latest_live g hg.2
  | publish live =>
      refine ⟨wf.arena, fun g hg => ?_⟩
      rw [Std.ExtHashMap.mem_insert] at hg
      rcases hg with heq | hg
      · rw [← eq_of_beq heq]
        exact live
      · exact wf.latest_live g hg
  | forget => exact ⟨wf.arena, fun g hg => wf.latest_live g (Std.ExtHashMap.mem_of_mem_erase hg)⟩
  | forgetAll => exact ⟨wf.arena, fun g hg => by simp at hg⟩

theorem Changes.wellFormed (hc : Changes r r') (wf : r.WellFormed) : r'.WellFormed := by
  induction hc with
  | refl => exact wf
  | tail _ hstep ih => exact hstep.wellFormed ih

/-! ### The calls that make such changes -/

theorem changes_deregister (hd : r.deregister h = .ok r') : Changes r r' := by
  unfold Registry.deregister at hd
  split at hd
  · next s arena hr =>
      cases hd
      exact .single (.remove hr)
  · cases hd

/-- The requests of an estimator remove registrations and do nothing else. -/
theorem changes_converse (r : Registry ε) (i : Interaction ε) :
    Changes r (r.converse i).registry := by
  induction i generalizing r with
  | done => exact .refl
  | deregister alphaId instrumentId resume ih =>
      simp only [converse]
      split
      · next r' hd =>
          obtain ⟨h, _, hd⟩ := bind_eq_ok_iff.mp hd
          exact (changes_deregister hd).trans (ih _ r')
      · exact ih _ r
  | cancelBatch rest ih => exact ih r

/-! Slots keep their names through every call. -/

@[simp] theorem key_absorb {β : Type} (s : Slot ε) (p : Except Fault β × ε) :
    (s.absorb p).2.key = s.key := by
  unfold Slot.absorb
  split <;> rfl

@[simp] theorem estimator_absorb {β : Type} (s : Slot ε) (p : Except Fault β × ε) :
    (s.absorb p).2.estimator = p.2 := by
  unfold Slot.absorb
  split <;> rfl

@[simp] theorem key_guarded {β : Type} (s : Slot ε) (call : ε → Except Fault β × ε) :
    (s.guarded call).2.key = s.key := by
  unfold Slot.guarded
  split
  · rfl
  · exact key_absorb s _

@[simp] theorem key_reset [Estimator ε] (s : Slot ε) : s.reset.2.key = s.key := by
  unfold Slot.reset
  split <;> rfl

theorem slot_eq_ok_iff : r.slot h = .ok s ↔ r.arena.get? h = some s := by
  unfold slot
  split <;> simp_all

/-- The slot that a handle reaches may be put back as a call has left it. -/
theorem changes_store (hs : r.slot h = .ok s) (hk : t.key = s.key) : Changes r (r.store h t) := by
  refine .single (.store fun s' hs' => ?_)
  rw [slot_eq_ok_iff.mp hs] at hs'
  cases hs'
  exact hk

theorem changes_callSlot {β : Type} (r : Registry ε) (h : Handle)
    (call : ε → Except Fault β × ε) : Changes r (r.callSlot h call).2 := by
  unfold callSlot
  split
  · exact .refl
  · next s hs => exact changes_store hs (key_guarded s call)

theorem changes_rebase [Estimator ε] (r : Registry ε) (h : Handle) : Changes r (r.rebase h).2 :=
  changes_callSlot r h Estimator.rebase

theorem changes_referenceBinning [Estimator ε] (r : Registry ε) (h : Handle) :
    Changes r (r.referenceBinning h).2 :=
  changes_callSlot r h _

theorem changes_installReference [Estimator ε] (r : Registry ε) (h : Handle)
    (counts : List Nat) : Changes r (r.installReference h counts).2 :=
  changes_callSlot r h (Estimator.installReference · counts)

theorem changes_reset [Estimator ε] (r : Registry ε) (h : Handle) : Changes r (r.reset h).2 := by
  unfold Registry.reset
  split
  · exact .refl
  · next s hs =>
      have hk := key_reset s
      split
      · next s' hreset =>
          rw [hreset] at hk
          exact (changes_store hs hk).tail .forget
      · next error s' hreset =>
          rw [hreset] at hk
          exact changes_store hs hk

theorem changes_publish (r : Registry ε) (h : Handle) (o : SignalOutput) :
    Changes r (r.publish h o) := by
  unfold publish
  split
  · next hl => exact .single (.publish hl)
  · exact .single .forget

/-- An update may be run on any slot with the names of the slot that is
registered, if there is still one. -/
theorem changes_run [Estimator ε] (hk : ∀ t, r.arena.get? h = some t → s.key = t.key)
    (event : MarketEvent) : Changes r (r.run h s event).registry := by
  unfold run
  split
  · exact .refl
  · have hturn := changes_converse r (Estimator.update s.estimator event)
    have hstore : Changes r ((r.converse (Estimator.update s.estimator event)).registry.store h
        (s.absorb ((r.converse (Estimator.update s.estimator event)).result,
          (r.converse (Estimator.update s.estimator event)).state)).2) := by
      refine hturn.tail (.store fun t ht => ?_)
      obtain ⟨t', ht', htt⟩ := (Changes.narrows hturn).get? h t ht
      rw [key_absorb, hk t' ht', htt]
    dsimp only
    split
    · exact hstore
    · exact hstore.trans (changes_publish _ _ _)

theorem changes_update [Estimator ε] (r : Registry ε) (h : Handle) (event : MarketEvent) :
    Changes r (r.update h event).2 := by
  unfold update
  split
  · exact .refl
  · next s hs =>
      split
      · exact .refl
      · split
        · exact .refl
        · refine changes_run ?_ event
          intro t ht
          rw [slot_eq_ok_iff.mp hs] at ht
          cases ht
          rfl

/-- A dispatch runs the slots that were registered when it began; those that
were removed since then are not put back. -/
theorem changes_feedAll [Estimator ε] (event : MarketEvent) (slots : List (Handle × Slot ε))
    (r : Registry ε)
    (hk : ∀ h s, (h, s) ∈ slots → ∀ t, r.arena.get? h = some t → s.key = t.key) :
    Changes r (feedAll event slots r).registry := by
  induction slots generalizing r with
  | nil => exact .refl
  | cons p rest ih =>
      obtain ⟨h, s⟩ := p
      have hrest : ∀ g s', (g, s') ∈ rest → ∀ t, r.arena.get? g = some t → s'.key = t.key :=
        fun g s' hm => hk g s' (List.mem_cons_of_mem _ hm)
      simp only [feedAll]
      split
      · have hrun := changes_run (hk h s List.mem_cons_self) event
        refine hrun.trans (ih _ fun g s' hm t ht => ?_)
        obtain ⟨t', ht', htt⟩ := (Changes.narrows hrun).get? g t ht
        rw [hrest g s' hm t' ht', htt]
      · exact ih r hrest

theorem mem_slotsOn_iff {i : InstrumentId} :
    (h, s) ∈ r.slotsOn i ↔ h ∈ r.handlesOn i ∧ r.arena.get? h = some s := by
  simp only [slotsOn, Arena.slotsOn, List.mem_filterMap, Option.map_eq_some_iff, Prod.mk.injEq]
  constructor
  · rintro ⟨g, hg, t, ht, rfl, rfl⟩
    exact ⟨hg, ht⟩
  · rintro ⟨hm, hs⟩
    exact ⟨h, hm, s, hs, rfl, rfl⟩

theorem changes_dispatch [Estimator ε] (r : Registry ε) (event : MarketEvent) :
    Changes r (r.dispatch event).registry := by
  refine changes_feedAll event _ r fun h s hm t ht => ?_
  rw [(mem_slotsOn_iff.mp hm).2] at ht
  cases ht
  rfl

/-- Clearing removes handles one after the other, all outputs being forgotten. -/
theorem changes_clearInOrder (r : Registry ε) (order : List Handle) :
    Changes r (r.clearInOrder order) := by
  have hall : ∀ (order : List Handle) (a : Arena ε),
      Changes ⟨a, ∅⟩ (⟨order.foldl (fun a h => ((a.remove? h).map (·.2)).getD a) a, ∅⟩ :
        Registry ε) := by
    intro order
    induction order with
    | nil => exact fun a => .refl
    | cons h rest ih =>
        intro a
        rw [List.foldl_cons]
        cases hr : a.remove? h with
        | none => exact ih a
        | some p =>
            obtain ⟨s, b⟩ := p
            have hstep : Change (⟨a, ∅⟩ : Registry ε) ⟨b, ∅⟩ := by
              simpa using Change.remove (r := ⟨a, ∅⟩) hr
            exact (Relation.ReflTransGen.single hstep).trans (ih b)
  exact (Relation.ReflTransGen.single .forgetAll).trans (hall order r.arena)

/-! ## Registrations -/

/-- What a registration that succeeds has done: a slot under names that were not
taken was inserted into the arena. -/
structure Enrols (r : Registry ε) (h : Handle) (r' : Registry ε) : Prop where
  inserted : ∃ s : Slot ε, r.arena.byKey[s.key]? = none ∧ r.arena.insert s = .ok (h, r'.arena)
  latest_eq : r'.latest = r.latest

/-- A new slot has the names and the estimator it was made for. -/
theorem slot_of_eq_ok [Estimator ε] {alphaId : AlphaId} {instrumentId : InstrumentId}
    {estimator : ε} (hs : Slot.of alphaId instrumentId estimator = .ok s) :
    s.alphaId = alphaId ∧ s.instrumentId = instrumentId ∧ s.estimator = estimator := by
  unfold Slot.of at hs
  obtain ⟨_, _, hs⟩ := bind_eq_ok_iff.mp hs
  obtain ⟨_, _, hs⟩ := bind_eq_ok_iff.mp hs
  cases hs
  exact ⟨rfl, rfl, rfl⟩

theorem enrols_registerEstimator [Estimator ε] {alphaId : AlphaId} {instrumentId : InstrumentId}
    {estimator : ε} (hr : r.registerEstimator alphaId instrumentId estimator = .ok (h, r')) :
    Enrols r h r' := by
  unfold registerEstimator at hr
  obtain ⟨_, _, hr⟩ := bind_eq_ok_iff.mp hr
  split at hr
  · cases hr
  · next hfree =>
      obtain ⟨s, hs, hr⟩ := bind_eq_ok_iff.mp hr
      obtain ⟨⟨g, arena⟩, hins, hr⟩ := bind_eq_ok_iff.mp hr
      cases hr
      obtain ⟨rfl, rfl, _⟩ := slot_of_eq_ok (mapError_eq_ok_iff.mp hs)
      refine ⟨⟨s, ?_, mapError_eq_ok_iff.mp hins⟩, rfl⟩
      rw [show s.key = ⟨s.alphaId, s.instrumentId⟩ from rfl]
      simpa using hfree

theorem enrols_register [AlphaHost ε] {alphaId : AlphaId} {instrumentId : InstrumentId}
    {config : AlphaConfig} (hr : r.register alphaId instrumentId config = .ok (h, r')) :
    Enrols r h r' := by
  obtain ⟨_, _, hr⟩ := bind_eq_ok_iff.mp hr
  exact enrols_registerEstimator hr

theorem Enrols.wellFormed (he : Enrols r h r') (wf : r.WellFormed) : r'.WellFormed := by
  obtain ⟨s, hfree, hins⟩ := he.inserted
  refine ⟨wf.arena.insert hfree hins, fun g hg => ?_⟩
  rw [he.latest_eq] at hg
  obtain ⟨t, ht⟩ := Arena.isLive_iff.mp (wf.latest_live g hg)
  apply Arena.isLive_iff.mpr
  rw [wf.arena.get?_insert hins]
  split
  · exact ⟨s, rfl⟩
  · exact ⟨t, ht⟩

/-- A call that is no registration gives no handle out. -/
theorem issued?_answer {β : Type} {f : β → Reply} (hf : ∀ x h, f x ≠ .handle h) (c : Call ε)
    (x : Except EngineError β) : (Step.mk c (answer f x)).issued? = none := by
  unfold Step.issued?
  cases x with
  | error error => rfl
  | ok x =>
      simp only [answer]
      split
      · next h heq => exact absurd (Except.ok.inj heq) (hf x h)
      · rfl

/-- Every call is a registration that gives its handle out, or changes the
registry in the ways that need no registration and gives no handle out. -/
theorem perform_cases [AlphaHost ε] {c : Call ε} {a : Answer} (hp : r.perform c = (a, r')) :
    (∃ h, a = .ok (.handle h) ∧ Enrols r h r') ∨
      ((Step.mk c a).issued? = none ∧ Changes r r') := by
  cases c with
  | register alphaId instrumentId config =>
      rcases enrolled_eq hp with ⟨h, hreg, rfl⟩ | ⟨fault, _, rfl, rfl⟩
      · exact .inl ⟨h, rfl, enrols_register hreg⟩
      · exact .inr ⟨rfl, .refl⟩
  | registerEstimator alphaId instrumentId estimator =>
      rcases enrolled_eq hp with ⟨h, hreg, rfl⟩ | ⟨fault, _, rfl, rfl⟩
      · exact .inl ⟨h, rfl, enrols_registerEstimator hreg⟩
      · exact .inr ⟨rfl, .refl⟩
  | deregister h =>
      rcases removed_eq hp with ⟨hd, rfl⟩ | ⟨error, _, rfl, rfl⟩
      · exact .inr ⟨rfl, changes_deregister hd⟩
      · exact .inr ⟨rfl, .refl⟩
  | clear order =>
      cases hp
      exact .inr ⟨rfl, changes_clearInOrder r order⟩
  | update h event =>
      cases hp
      exact .inr ⟨issued?_answer (by simp) _ _, changes_update r h event⟩
  | dispatch event =>
      cases hp
      exact .inr ⟨rfl, changes_dispatch r event⟩
  | reset h =>
      cases hp
      exact .inr ⟨issued?_answer (by simp) _ _, changes_reset r h⟩
  | rebase h =>
      cases hp
      exact .inr ⟨issued?_answer (by simp) _ _, changes_rebase r h⟩
  | referenceBinning h =>
      cases hp
      exact .inr ⟨issued?_answer (by simp) _ _, changes_referenceBinning r h⟩
  | installReference h counts =>
      cases hp
      exact .inr ⟨issued?_answer (by simp) _ _, changes_installReference r h counts⟩
  | latest h =>
      cases hp
      exact .inr ⟨issued?_answer (by simp) _ _, .refl⟩

theorem perform_wellFormed [AlphaHost ε] {c : Call ε} {a : Answer} (wf : r.WellFormed)
    (hp : r.perform c = (a, r')) : r'.WellFormed := by
  rcases perform_cases hp with ⟨h, _, he⟩ | ⟨_, hc⟩
  · exact he.wellFormed wf
  · exact hc.wellFormed wf

end MarketSignals.Registry
