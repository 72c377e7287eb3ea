import MarketSignals.Proofs.Registry.LastOutput

/-!
# Registrations among estimators that make requests

An estimator may have others removed while it takes an event in, so a call on one
registration, or a dispatch that comes to it late, can find the registry changed.
Nothing else can happen to a registration that a call does not concern.  And a
call that concerns it acts on its cell alone, the updates ending as they do in the
registry that is met.

## Main definitions

* `Spares` — a registration is left alone or removed.
* `settledIn`, `Cell.respondIn` — estimators whose updates end as they do in a given
  registry, and what a cell gives there.
* `Serving`, `servings` — the turns of a dispatch.
* `metBy` — the registry that a call finds when it comes to a registration.

## Main results

* `report_feedAll` — the report of a dispatch, turn by turn.
* `perform_concerned`, `perform_unconcerned` — one call, as a registration sees it.
* `Course.unroll` — a batch is the run of its dispatches.
-/

namespace MarketSignals

variable {ε : Type}

namespace Registry

variable {r r' r'' : Registry ε} {g h : Handle} {s : Slot ε} {c c' : Cell ε} {event : MarketEvent}

/-! ## What others do to a registration -/

/-- A registration is left alone, or removed. -/
def Spares (h : Handle) (r r' : Registry ε) : Prop := ∀ c, r'.cell? h = some c → r.cell? h = some c

theorem Spares.refl (h : Handle) (r : Registry ε) : Spares h r r := fun _ hc => hc

theorem Spares.of_eq (heq : r'.cell? h = r.cell? h) : Spares h r r' := fun _ hc => heq ▸ hc

theorem Spares.trans (h₁ : Spares h r r') (h₂ : Spares h r' r'') : Spares h r r'' :=
  fun c hc => h₁ c (h₂ c hc)

/-- A removal spares even the one that it removes. -/
theorem spares_deregister (hd : r.deregister g = .ok r') : Spares h r r' := by
  by_cases hgh : h = g
  · subst hgh
    intro c hc
    rw [cell?_deregister_self hd] at hc
    cases hc
  · exact .of_eq (cell?_deregister hd hgh)

/-- An estimator can remove registrations and do nothing else to them. -/
theorem spares_converse (r : Registry ε) (i : Interaction ε) :
    Spares h r (r.converse i).registry := by
  induction i generalizing r with
  | done => exact .refl h r
  | deregister alphaId instrumentId resume ih =>
      simp only [converse]
      split
      · next r₁ hd =>
          obtain ⟨g, _, hd⟩ := bind_eq_ok_iff.mp hd
          exact (spares_deregister hd).trans (ih _ r₁)
      · exact ih _ r
  | cancelBatch rest ih => exact ih r

theorem cell?_store_of_ne (r : Registry ε) (hne : h ≠ g) (s : Slot ε) :
    (r.store g s).cell? h = r.cell? h := by
  unfold cell? Registry.store
  simp only [Arena.get?_store, hne, false_and, if_false]

theorem cell?_publish_of_ne (r : Registry ε) (hne : h ≠ g) (o : SignalOutput) :
    (r.publish g o).cell? h = r.cell? h := by
  have hbeq : (g == h) = false := beq_eq_false_iff_ne.mpr (Ne.symm hne)
  unfold cell? publish
  split <;> simp [Std.ExtHashMap.getElem?_insert, Std.ExtHashMap.getElem?_erase, hne.symm]

section

variable [Estimator ε]

theorem spares_run (hne : h ≠ g) (r : Registry ε) (s : Slot ε) (event : MarketEvent) :
    Spares h r (r.run g s event).registry := by
  unfold run
  split
  · exact .refl h r
  · have hturn := spares_converse (h := h) r (Estimator.update s.estimator event)
    dsimp only
    split
    · exact hturn.trans (.of_eq (cell?_store_of_ne _ hne _))
    · exact hturn.trans
        ((Spares.of_eq (cell?_store_of_ne _ hne _)).trans (.of_eq (cell?_publish_of_ne _ hne _)))

theorem spares_update (hne : h ≠ g) (r : Registry ε) (event : MarketEvent) :
    Spares h r (r.update g event).2 := by
  unfold Registry.update
  split
  · exact .refl h r
  · split
    · exact .refl h r
    · split
      · exact .refl h r
      · exact spares_run hne r _ event

theorem spares_feedAll {slots : List (Handle × Slot ε)} (hout : h ∉ slots.map Prod.fst)
    (r : Registry ε) : Spares h r (feedAll event slots r).registry := by
  induction slots generalizing r with
  | nil => exact .refl h r
  | cons p rest ih =>
      rw [List.map_cons, List.mem_cons, not_or] at hout
      simp only [feedAll]
      split
      · exact (spares_run hout.1 r p.2 event).trans (ih hout.2 _)
      · exact ih hout.2 r

end

/-- A call on another estimator spares a registration. -/
theorem spares_touch [AlphaHost ε] (hne : h ≠ g) (r : Registry ε) (t : Touch) :
    Spares h r (r.perform (t.on g)).2 := by
  by_cases ht : ∃ event, t = .update event
  · obtain ⟨event, rfl⟩ := ht
    exact spares_update hne r event
  · cases hg : r.cell? g with
    | none =>
        rw [perform_touch_stale hg]
        exact .refl h r
    | some d =>
        rw [perform_touch_of_ne_update hg fun event heq => ht ⟨event, heq⟩]
        exact .of_eq (by rw [cell?_put hg, if_neg hne])

end Registry

/-! ## What a registration does where it is met -/

/-- How an update ends amid a registry: the result, and the estimator it leaves. -/
def Registry.ending [Estimator ε] (r : Registry ε) (e : ε) (event : MarketEvent) :
    Except Fault SignalReading × ε :=
  ((r.converse (Estimator.update e event)).result, (r.converse (Estimator.update e event)).state)

/-- Estimators whose updates end as they do amid a given registry, without asking
anything of it. -/
@[reducible] def Registry.settledIn [Estimator ε] (r : Registry ε) : Estimator ε where
  kind := Estimator.kind
  requiredFields := Estimator.requiredFields
  update e event := .done (r.ending e event).1 (r.ending e event).2
  reset := Estimator.reset
  rebase := Estimator.rebase
  referenceBinning := Estimator.referenceBinning
  installReference := Estimator.installReference

namespace Cell

variable [Estimator ε]

/-- What a cell gives for an event that its estimator takes in amid a registry, and
the cell it leaves. -/
def feedIn (r : Registry ε) (c : Cell ε) (event : MarketEvent) :
    Except EngineError SignalOutput × Cell ε :=
  @feed ε r.settledIn c event

theorem feedIn_eq (r : Registry ε) (c : Cell ε) (event : MarketEvent) :
    c.feedIn r event =
      if c.slot.disabled then (.error c.slot.disabledError, c)
      else
        match c.slot.absorb (r.ending c.slot.estimator event) with
        | (.error error, slot) => (.error error, { c with slot })
        | (.ok reading, slot) =>
            let output :=
              SignalOutput.ofReading slot.alphaId slot.instrumentId event.timestamp reading
            (.ok output, ⟨slot, some output⟩) := rfl

/-- What a cell gives amid a registry, and the cell it leaves. -/
def respondIn (r : Registry ε) (c : Cell ε) (k : Concern) : Result × Cell ε :=
  @respond ε r.settledIn c k

/-- Only updates depend on what is around. -/
theorem act_settledIn (r : Registry ε) (c : Cell ε) {t : Touch}
    (ht : ∀ event, t ≠ .update event) : @act ε r.settledIn c t = c.act t := by
  cases t with
  | update event => exact absurd rfl (ht event)
  | _ => rfl

end Cell

namespace Registry

variable {r r' r'' : Registry ε} {g h : Handle} {s : Slot ε} {c c' : Cell ε} {event : MarketEvent}

section

variable [Estimator ε]

/-- The result of running a slot is what its cell gives there, whatever the output
of the cell. -/
theorem result_run (r : Registry ε) (h : Handle) (c : Cell ε) (event : MarketEvent) :
    (r.run h c.slot event).result = (c.feedIn r event).1 := by
  unfold run
  rw [Cell.feedIn_eq]
  split
  · rfl
  · simp only [ending]
    generalize r.converse (Estimator.update c.slot.estimator event) = turn
    cases hab : c.slot.absorb (turn.result, turn.state) with
    | mk result slot => cases result <;> rfl

/-- What is left of a registration that was run and lives on is what its cell leaves
there. -/
theorem cell?_run (hc : ∀ d, r.cell? h = some d → d = c)
    (hc' : (r.run h c.slot event).registry.cell? h = some c') : c' = (c.feedIn r event).2 := by
  unfold run at hc'
  rw [Cell.feedIn_eq]
  by_cases hd : c.slot.disabled = true
  · rw [if_pos hd] at hc' ⊢
    exact hc c' hc'
  · rw [if_neg hd] at hc' ⊢
    have hturn := spares_converse (h := h) r (Estimator.update c.slot.estimator event)
    simp only [ending] at hc' ⊢
    generalize r.converse (Estimator.update c.slot.estimator event) = turn at hc' hturn ⊢
    -- The requests have left the cell as it was, or removed it for good.
    have hlive : turn.registry.cell? h = some c := by
      have hisLive : turn.registry.arena.isLive h = true := by
        obtain ⟨hs, _⟩ := cell?_eq_some_iff.mp hc'
        have hl := Arena.isLive_iff.mpr ⟨_, hs⟩
        split at hl <;> simpa [publish, Registry.store, Arena.isLive_store] using hl
      obtain ⟨s, hs⟩ := Arena.isLive_iff.mp hisLive
      rw [cell?_of_get? hs, hc _ (hturn _ (cell?_of_get? hs))]
    cases hab : c.slot.absorb (turn.result, turn.state) with
    | mk result slot =>
        cases result with
        | error error =>
            simp only [hab, store_eq_put hlive, cell?_put hlive, if_pos, Option.some.injEq] at hc'
            exact hc'.symm
        | ok reading =>
            have hpublish : ∀ o, (turn.registry.store h slot).publish h o =
                turn.registry.put h ⟨slot, some o⟩ := by
              intro o
              rw [← insert_eq_put, publish, Registry.store, Arena.isLive_store,
                if_pos (Arena.isLive_iff.mpr ⟨_, (cell?_eq_some_iff.mp hlive).1⟩)]
            simp only [hab, hpublish, cell?_put hlive, if_pos, Option.some.injEq] at hc'
            exact hc'.symm

/-! ## Dispatch, turn by turn -/

/-- A turn in a dispatch: a slot that takes the event, and the registry it meets. -/
structure Serving (ε : Type) where
  handle : Handle
  slot : Slot ε
  registry : Registry ε

namespace Serving

/-- What comes of a turn. -/
def feed (event : MarketEvent) (t : Serving ε) : Feed ε := t.registry.run t.handle t.slot event

/-- The output of a turn that succeeds. -/
def output? (event : MarketEvent) (t : Serving ε) : Option SignalOutput :=
  (t.feed event).result.toOption

/-- The failure of a turn that fails. -/
def failure? (event : MarketEvent) (t : Serving ε) : Option DispatchFailure :=
  match (t.feed event).result with
  | .ok _ => none
  | .error error => some ⟨t.handle, t.slot.alphaId, error⟩

theorem handle_of_failure? {t : Serving ε} {f : DispatchFailure} (hf : t.failure? event = some f) :
    f.handle = t.handle := by
  unfold failure? at hf
  split at hf
  · cases hf
  · cases hf
    rfl

theorem alphaId_of_output? {t : Serving ε} {o : SignalOutput} (ho : t.output? event = some o) :
    o.alphaId = t.slot.alphaId := by
  unfold output? at ho
  cases hresult : (t.feed event).result with
  | error error =>
      rw [hresult] at ho
      cases ho
  | ok o' =>
      rw [hresult] at ho
      cases ho
      exact congrArg SlotKey.alphaId (key_of_run hresult)

end Serving

/-- The turns of a dispatch to the given slots, each in the registry that the one
before has left. -/
def servings (event : MarketEvent) : List (Handle × Slot ε) → Registry ε → List (Serving ε)
  | [], _ => []
  | (h, s) :: rest, r =>
      if s.accepts event then ⟨h, s, r⟩ :: servings event rest (r.run h s event).registry
      else servings event rest r

/-- What turns come to. -/
def reportOfTurns (event : MarketEvent) (turns : List (Serving ε)) (skipped : Nat) :
    DispatchReport where
  outputs := turns.filterMap (·.output? event)
  failures := turns.filterMap (·.failure? event)
  skipped := skipped

theorem record_reportOfTurns (event : MarketEvent) (t : Serving ε) (turns : List (Serving ε))
    (skipped : Nat) :
    (reportOfTurns event turns skipped).record t.handle t.slot.alphaId (t.feed event).result =
      reportOfTurns event (t :: turns) skipped := by
  unfold reportOfTurns Serving.output? Serving.failure?
  cases hresult : (t.feed event).result with
  | error error => simp [DispatchReport.record, hresult, Except.toOption]
  | ok o => simp [DispatchReport.record, hresult, Except.toOption]

/-- A dispatch reports what its turns have come to, and the slots passed over. -/
theorem report_feedAll (event : MarketEvent) (slots : List (Handle × Slot ε)) (r : Registry ε) :
    (feedAll event slots r).report =
      reportOfTurns event (servings event slots r) (slots.countP fun p => !p.2.accepts event) := by
  induction slots generalizing r with
  | nil => rfl
  | cons p rest ih =>
      obtain ⟨h, s⟩ := p
      by_cases haccepts : s.accepts event = true
      · simp only [feedAll, servings, if_pos haccepts, ih]
        rw [List.countP_cons_of_neg (by simp [haccepts])]
        exact record_reportOfTurns event ⟨h, s, r⟩ _ _
      · simp only [feedAll, servings, if_neg haccepts, ih]
        rw [List.countP_cons_of_pos (by simp [haccepts])]
        rfl

/-- Every slot that takes the event has one turn, in the order given. -/
theorem map_servings (event : MarketEvent) (slots : List (Handle × Slot ε)) (r : Registry ε) :
    (servings event slots r).map (fun t => (t.handle, t.slot)) =
      slots.filter (·.2.accepts event) := by
  induction slots generalizing r with
  | nil => rfl
  | cons p rest ih =>
      obtain ⟨h, s⟩ := p
      simp only [servings, List.filter_cons]
      split
      · rw [List.map_cons, ih]
      · exact ih r

theorem servings_append (event : MarketEvent) (before after : List (Handle × Slot ε))
    (r : Registry ε) :
    servings event (before ++ after) r =
      servings event before r ++ servings event after (feedAll event before r).registry := by
  induction before generalizing r with
  | nil => rfl
  | cons p rest ih =>
      simp only [List.cons_append, servings, feedAll]
      split
      · rw [ih, List.cons_append]
      · exact ih r

theorem registry_feedAll_append (event : MarketEvent) (before after : List (Handle × Slot ε))
    (r : Registry ε) :
    (feedAll event (before ++ after) r).registry =
      (feedAll event after (feedAll event before r).registry).registry := by
  induction before generalizing r with
  | nil => rfl
  | cons p rest ih =>
      simp only [List.cons_append, feedAll]
      split
      · exact ih _
      · exact ih r

/-! ### One slot among the turns -/

theorem mem_of_mem_servings {slots : List (Handle × Slot ε)} {t : Serving ε}
    (ht : t ∈ servings event slots r) : (t.handle, t.slot) ∈ slots := by
  have hm := List.mem_map_of_mem (f := fun t : Serving ε => (t.handle, t.slot)) ht
  rw [map_servings] at hm
  exact (List.mem_filter.mp hm).1

/-- A slot that takes the event has one turn.  The others spare its registration
before and after. -/
theorem exists_turn {slots : List (Handle × Slot ε)} (hnd : (slots.map Prod.fst).Nodup)
    (hm : (h, s) ∈ slots) (ha : s.accepts event = true) (r : Registry ε) :
    ∃ first met others, servings event slots r = first ++ ⟨h, s, met⟩ :: others ∧
      (∀ t ∈ first ++ others, t.handle ≠ h ∧ (t.handle, t.slot) ∈ slots) ∧ Spares h r met ∧
        Spares h (met.run h s event).registry (feedAll event slots r).registry := by
  obtain ⟨before, after, rfl⟩ := List.append_of_mem hm
  rw [List.map_append, List.map_cons, List.nodup_middle, List.nodup_cons, List.mem_append,
    not_or] at hnd
  obtain ⟨⟨hbefore, hafter⟩, _⟩ := hnd
  let met := (feedAll event before r).registry
  refine ⟨servings event before r, met, servings event after (met.run h s event).registry, ?_, ?_,
    spares_feedAll hbefore r, ?_⟩
  · rw [servings_append, servings, if_pos ha]
  · intro t ht
    rcases List.mem_append.mp ht with ht | ht
    · have hslot := mem_of_mem_servings ht
      refine ⟨?_, List.mem_append_left _ hslot⟩
      rintro rfl
      exact hbefore (List.mem_map.mpr ⟨_, hslot, rfl⟩)
    · have hslot := mem_of_mem_servings ht
      refine ⟨?_, List.mem_append_right _ (List.mem_cons_of_mem _ hslot)⟩
      rintro rfl
      exact hafter (List.mem_map.mpr ⟨_, hslot, rfl⟩)
  · rw [registry_feedAll_append]
    simp only [feedAll, if_pos ha]
    exact spares_feedAll hafter _

/-- A slot that does not take the event has no turn, and its registration is
spared. -/
theorem passed_over {slots : List (Handle × Slot ε)} (hnd : (slots.map Prod.fst).Nodup)
    (hm : (h, s) ∈ slots) (ha : s.accepts event ≠ true) (r : Registry ε) :
    (∀ t ∈ servings event slots r, t.handle ≠ h ∧ (t.handle, t.slot) ∈ slots) ∧
      Spares h r (feedAll event slots r).registry := by
  constructor
  · intro t ht
    refine ⟨?_, mem_of_mem_servings ht⟩
    rintro rfl
    have hm' := List.mem_map_of_mem (f := fun t : Serving ε => (t.handle, t.slot)) ht
    rw [map_servings] at hm'
    obtain ⟨hslot, haccepts⟩ := List.mem_filter.mp hm'
    have hsame := List.inj_on_of_nodup_map hnd hslot hm rfl
    rw [hsame] at haccepts
    exact ha haccepts
  · obtain ⟨before, after, rfl⟩ := List.append_of_mem hm
    rw [List.map_append, List.map_cons, List.nodup_middle, List.nodup_cons, List.mem_append,
      not_or] at hnd
    rw [registry_feedAll_append]
    simp only [feedAll, if_neg ha]
    exact (spares_feedAll hnd.1.1 r).trans (spares_feedAll hnd.1.2 _)

/-- What one of several things gives is found among what all give, if the others
give nothing like it. -/
theorem filter_filterMap_middle {α β : Type} {f : α → Option β} {p : β → Bool} {xs ys : List α}
    {x : α} (hothers : ∀ y ∈ xs ++ ys, ∀ b, f y = some b → p b = false)
    (hx : ∀ b, f x = some b → p b = true) :
    ((xs ++ x :: ys).filterMap f).filter p = (f x).toList := by
  have hnone : ∀ zs : List α, (∀ y ∈ zs, y ∈ xs ++ ys) → (zs.filterMap f).filter p = [] := by
    intro zs hzs
    rw [List.filter_eq_nil_iff]
    intro b hb
    obtain ⟨y, hy, hyb⟩ := List.mem_filterMap.mp hb
    rw [hothers y (hzs y hy) b hyb]
    exact Bool.false_ne_true
  rw [List.filterMap_append, List.filter_append, hnone xs fun y => List.mem_append_left ys,
    List.nil_append, List.filterMap_cons]
  cases hfx : f x with
  | none => exact hnone ys fun y => List.mem_append_right xs
  | some b =>
      rw [List.filter_cons_of_pos (hx b hfx), hnone ys fun y => List.mem_append_right xs]
      rfl

section

variable {first others : List (Serving ε)} {t : Serving ε} {skipped : Nat}

/-- A report has the failure of a turn, and no other with its handle. -/
theorem failures_of_turn (hh : ∀ u ∈ first ++ others, u.handle ≠ t.handle) :
    (reportOfTurns event (first ++ t :: others) skipped).failures.filter (·.handle == t.handle) =
      (t.failure? event).toList := by
  refine filter_filterMap_middle ?_ ?_
  · intro u hu f hf
    rw [Serving.handle_of_failure? hf]
    exact beq_eq_false_iff_ne.mpr (hh u hu)
  · intro f hf
    rw [Serving.handle_of_failure? hf]
    exact beq_self_eq_true _

/-- A report has the output of a turn, and no other under its name. -/
theorem outputs_of_turn (hn : ∀ u ∈ first ++ others, u.slot.alphaId ≠ t.slot.alphaId) :
    (reportOfTurns event (first ++ t :: others) skipped).outputs.filter
      (·.alphaId == t.slot.alphaId) = (t.output? event).toList := by
  refine filter_filterMap_middle ?_ ?_
  · intro u hu o ho
    rw [Serving.alphaId_of_output? ho]
    exact beq_eq_false_iff_ne.mpr (hn u hu)
  · intro o ho
    rw [Serving.alphaId_of_output? ho]
    exact beq_self_eq_true _

/-- What a report says about a turn is the result of the turn. -/
theorem about_of_turn (hh : ∀ u ∈ first ++ others, u.handle ≠ t.handle)
    (hn : ∀ u ∈ first ++ others, u.slot.alphaId ≠ t.slot.alphaId) :
    (reportOfTurns event (first ++ t :: others) skipped).about t.handle t.slot.alphaId =
      some (t.feed event).result := by
  unfold DispatchReport.about
  rw [← List.head?_filter, ← List.head?_filter, failures_of_turn hh, outputs_of_turn hn]
  unfold Serving.failure? Serving.output?
  cases (t.feed event).result <;> rfl

/-- A report says nothing about those that had no turn. -/
theorem about_of_no_turn {turns : List (Serving ε)} {alphaId : AlphaId}
    (hh : ∀ u ∈ turns, u.handle ≠ h) (hn : ∀ u ∈ turns, u.slot.alphaId ≠ alphaId) :
    (reportOfTurns event turns skipped).about h alphaId = none := by
  have hfailures : (reportOfTurns event turns skipped).failures.find? (·.handle == h) = none := by
    rw [List.find?_eq_none]
    intro f hf heq
    obtain ⟨u, hu, hfu⟩ := List.mem_filterMap.mp hf
    exact hh u hu ((Serving.handle_of_failure? hfu).symm.trans (eq_of_beq heq))
  have houtputs : (reportOfTurns event turns skipped).outputs.find? (·.alphaId == alphaId) =
      none := by
    rw [List.find?_eq_none]
    intro o ho heq
    obtain ⟨u, hu, hou⟩ := List.mem_filterMap.mp ho
    exact hn u hu ((Serving.alphaId_of_output? hou).symm.trans (eq_of_beq heq))
  unfold DispatchReport.about
  rw [hfailures, houtputs]
  rfl

end

/-! ## One call -/

/-- The registry that a call finds when it comes to a registration: a dispatch has
fed others before. -/
def metBy (r : Registry ε) (h : Handle) : Call ε → Registry ε
  | .dispatch event =>
      let turn? := (servings event (r.slotsOn event.instrumentId) r).find? (·.handle == h)
      (turn?.map (·.registry)).getD r
  | _ => r

omit [Estimator ε] in
/-- The slots on an instrument have different names. -/
theorem names_slotsOn (wf : r.WellFormed) {i : InstrumentId} {g h : Handle} {s t : Slot ε}
    (hg : (g, s) ∈ r.slotsOn i) (hh : (h, t) ∈ r.slotsOn i) (hne : g ≠ h) :
    s.alphaId ≠ t.alphaId := by
  rw [slotsOn_eq] at hg hh
  obtain ⟨⟨g', c⟩, hgc, hgs⟩ := List.mem_map.mp hg
  obtain ⟨⟨h', d⟩, hhd, hht⟩ := List.mem_map.mp hh
  cases hgs
  cases hht
  intro heq
  have hsame := List.inj_on_of_nodup_map (names_cellsOn_nodup wf i) hgc hhd heq
  exact hne (congrArg Prod.fst hsame)

/-- A registration takes its turn in a dispatch on its instrument. -/
theorem dispatch_meets (wf : r.WellFormed) (hc : r.cell? h = some c)
    (hi : event.instrumentId = c.slot.instrumentId) :
    .part ((r.dispatch event).report.about h c.slot.alphaId) =
        (c.respondIn (r.metBy h (.dispatch event)) (.event event)).1 ∧
      ∀ c', (r.dispatch event).registry.cell? h = some c' →
        c' = (c.respondIn (r.metBy h (.dispatch event)) (.event event)).2 := by
  have hm : (h, c.slot) ∈ r.slotsOn event.instrumentId := by
    rw [slotsOn_eq]
    exact List.mem_map.mpr ⟨(h, c), (mem_cellsOn_iff wf).mpr ⟨hc, hi.symm⟩, rfl⟩
  have hnd : ((r.slotsOn event.instrumentId).map Prod.fst).Nodup := by
    rw [wf.slotsOn_handles]
    exact wf.arena.handlesOn_nodup _
  unfold Registry.dispatch
  rw [report_feedAll]
  by_cases ha : c.slot.accepts event = true
  · obtain ⟨first, met, others, hturns, hothers, hbefore, hafter⟩ := exists_turn hnd hm ha r
    have hmet : r.metBy h (.dispatch event) = met := by
      have hfirst : first.find? (·.handle == h) = none := by
        rw [List.find?_eq_none]
        exact fun t ht heq => (hothers t (List.mem_append_left _ ht)).1 (eq_of_beq heq)
      simp [metBy, hturns, List.find?_append, hfirst]
    have hrespond : c.respondIn met (.event event) = (c.feedIn met event).map (Result.part ∘ some) id := by
      show (@Cell.offer ε met.settledIn c event).map Result.part id = _
      unfold Cell.offer
      rw [if_pos ha]
      rfl
    rw [hmet, hrespond, hturns]
    constructor
    · have habout : ∀ skipped, (reportOfTurns event (first ++ ⟨h, c.slot, met⟩ :: others)
          skipped).about h c.slot.alphaId = some (met.run h c.slot event).result :=
        fun skipped => about_of_turn (fun u hu => (hothers u hu).1)
          fun u hu => names_slotsOn wf (hothers u hu).2 hm (hothers u hu).1
      rw [habout]
      exact congrArg (Result.part ∘ some) (result_run met h c event)
    · intro c' hc'
      refine cell?_run ?_ (hafter c' hc')
      intro d hd
      have hsame := hbefore d hd
      rw [hc] at hsame
      exact (Option.some.inj hsame).symm
  · obtain ⟨hturns, hspares⟩ := passed_over hnd hm ha r
    have hrespond : ∀ met : Registry ε, c.respondIn met (.event event) = (.part none, c) := by
      intro met
      show (@Cell.offer ε met.settledIn c event).map Result.part id = _
      unfold Cell.offer
      rw [if_neg ha]
      rfl
    rw [hrespond]
    constructor
    · rw [about_of_no_turn (fun u hu => (hturns u hu).1)
        (fun u hu => names_slotsOn wf (hturns u hu).2 hm (hturns u hu).1)]
    · intro c' hc'
      have hsame := hspares c' hc'
      rw [hc] at hsame
      exact (Option.some.inj hsame).symm

/-- An update on a registration acts on its cell alone. -/
theorem update_meets (hc : r.cell? h = some c) (event : MarketEvent) :
    (r.update h event).1 = (@Cell.update ε r.settledIn c event).1 ∧
      ∀ c', (r.update h event).2.cell? h = some c' →
        c' = (@Cell.update ε r.settledIn c event).2 := by
  have hkept : ∀ c', r.cell? h = some c' → c' = c := by
    intro c' hc'
    rw [hc] at hc'
    exact (Option.some.inj hc').symm
  unfold Registry.update Cell.update
  rw [slot_of_cell hc]
  simp only
  split
  · exact ⟨rfl, hkept⟩
  · split
    · exact ⟨rfl, hkept⟩
    · exact ⟨result_run r h c event, fun c' hc' => cell?_run hkept hc'⟩

end

section

variable [AlphaHost ε] {call : Call ε} {a : Answer}

theorem touch_meets {t : Touch} (hp : r.perform (t.on h) = (a, r')) (hc : r.cell? h = some c) :
    a = (@Cell.act ε r.settledIn c t).1 ∧
      ∀ c', r'.cell? h = some c' → c' = (@Cell.act ε r.settledIn c t).2 := by
  by_cases ht : ∃ event, t = .update event
  · obtain ⟨event, rfl⟩ := ht
    obtain ⟨hresult, hcell⟩ := update_meets hc event
    obtain ⟨rfl, rfl⟩ := answered_eq (r.update h event) hp
    exact ⟨congrArg (answer .output) hresult, hcell⟩
  · have hne : ∀ event, t ≠ .update event := fun event heq => ht ⟨event, heq⟩
    rw [perform_touch_of_ne_update hc hne] at hp
    cases hp
    rw [Cell.act_settledIn r c hne]
    refine ⟨rfl, fun c' hc' => ?_⟩
    rw [cell?_put hc, if_pos rfl] at hc'
    exact (Option.some.inj hc').symm

omit [AlphaHost ε] in
/-- A call that concerns a registration is a call on its estimator, or a dispatch on
its instrument. -/
theorem Call.eq_of_concern? {i : InstrumentId} {k : Concern} (hk : call.concern? h i = some k) :
    (∃ t, call = t.on h ∧ k = .touch t) ∨
      ∃ event, call = .dispatch event ∧ event.instrumentId = i ∧ k = .event event := by
  cases htouch : call.touch? with
  | some p =>
      obtain ⟨g, t⟩ := p
      have hcall := Call.eq_of_touch? htouch
      subst hcall
      left
      by_cases hgh : g = h
      · subst hgh
        refine ⟨t, rfl, ?_⟩
        cases t <;> simpa [Call.concern?, Call.touch?, Touch.on] using hk.symm
      · cases t <;> simp [Call.concern?, Call.touch?, Touch.on, hgh] at hk
  | none =>
      cases call with
      | dispatch event =>
          simp only [Call.concern?] at hk
          split at hk
          · next hi =>
              cases hk
              exact .inr ⟨event, rfl, hi, rfl⟩
          · cases hk
      | _ => simp [Call.concern?, htouch] at hk

/-- A call that concerns a registration is answered from its cell, amid the registry
that the call finds when it comes to it. -/
theorem perform_concerned (wf : r.WellFormed) (hp : r.perform call = (a, r'))
    (hc : r.cell? h = some c) {k : Concern} (hk : call.concern? h c.slot.instrumentId = some k) :
    (Step.mk call a).result h c.slot.alphaId = (c.respondIn (r.metBy h call) k).1 ∧
      ∀ c', r'.cell? h = some c' → c' = (c.respondIn (r.metBy h call) k).2 := by
  rcases Call.eq_of_concern? hk with ⟨t, rfl, rfl⟩ | ⟨event, rfl, hi, rfl⟩
  · have hmet : r.metBy h (t.on h) = r := by cases t <;> rfl
    have hresult : (Step.mk (t.on h : Call ε) a).result h c.slot.alphaId = .answer a := by
      cases t <;> rfl
    obtain ⟨ha, hcell⟩ := touch_meets hp hc
    rw [hmet, hresult]
    exact ⟨congrArg Result.answer ha, hcell⟩
  · cases hp
    exact dispatch_meets wf hc hi

/-- Every other call leaves the cell of a registration alone, or removes it. -/
theorem perform_unconcerned (wf : r.WellFormed) (allowed : call.Allowed r)
    (hp : r.perform call = (a, r')) (hc : r.cell? h = some c)
    (hk : call.concern? h c.slot.instrumentId = none) (hc' : r'.cell? h = some c') : c' = c := by
  have hspared : Spares h r r' → c' = c := by
    intro hspares
    have hsame := hspares c' hc'
    rw [hc] at hsame
    exact (Option.some.inj hsame).symm
  have henrols : ∀ {g}, Enrols r g r' → c' = c := by
    intro g he
    have hsame := cell?_enrols wf he hc
    rw [hc'] at hsame
    exact Option.some.inj hsame
  cases htouch : call.touch? with
  | some p =>
      obtain ⟨g, t⟩ := p
      have hcall := Call.eq_of_touch? htouch
      subst hcall
      have hne : h ≠ g := by
        rintro rfl
        cases t <;> simp [Call.concern?, Call.touch?, Touch.on] at hk
      have hspares := spares_touch hne r t
      rw [hp] at hspares
      exact hspared hspares
  | none =>
      cases call with
      | update | reset | rebase | referenceBinning | installReference | latest => cases htouch
      | clear order =>
          cases hp
          have hnone := wf.clearInOrder_empties allowed h
          rw [(cell?_eq_some_iff.mp hc').1] at hnone
          cases hnone
      | register alphaId instrumentId config =>
          rcases enrolled_eq hp with ⟨g, hreg, _⟩ | ⟨fault, _, _, rfl⟩
          · exact henrols (enrols_register hreg)
          · exact hspared (.refl h r')
      | registerEstimator alphaId instrumentId estimator =>
          rcases enrolled_eq hp with ⟨g, hreg, _⟩ | ⟨fault, _, _, rfl⟩
          · exact henrols (enrols_registerEstimator hreg)
          · exact hspared (.refl h r')
      | deregister g =>
          rcases removed_eq hp with ⟨hd, _⟩ | ⟨error, _, _, rfl⟩
          · exact hspared (spares_deregister hd)
          · exact hspared (.refl h r')
      | dispatch event =>
          cases hp
          refine hspared (spares_feedAll ?_ r)
          intro hm
          obtain ⟨⟨g, s⟩, hs, rfl⟩ := List.mem_map.mp hm
          obtain ⟨hlisted, hget⟩ := mem_slotsOn_iff.mp hs
          obtain ⟨t, ht, hsi⟩ := (wf.arena.mem_handlesOn_iff _ _).mp hlisted
          rw [(cell?_eq_some_iff.mp hc).1] at ht
          cases ht
          simp [Call.concern?, hsi] at hk

/-- A call that does not give a handle out finds it registered if it leaves it so. -/
theorem cell?_before (wf : r.WellFormed) (hp : r.perform call = (a, r'))
    (hold : a ≠ .ok (.handle h)) (hc' : r'.cell? h = some c') : ∃ c, r.cell? h = some c := by
  obtain ⟨hs', _⟩ := cell?_eq_some_iff.mp hc'
  rcases perform_cases hp with ⟨g, rfl, he⟩ | ⟨_, hchanges⟩
  · obtain ⟨s, _, hins⟩ := he.inserted
    have hne : h ≠ g := fun heq => hold (by rw [heq])
    rw [wf.arena.get?_insert hins, if_neg hne] at hs'
    exact ⟨_, cell?_of_get? hs'⟩
  · obtain ⟨s, hs⟩ := Arena.isLive_iff.mp
      (Changes.isLive hchanges (Arena.isLive_iff.mpr ⟨_, hs'⟩))
    exact ⟨_, cell?_of_get? hs⟩

/-! ## Batches -/

/-- The calls that an operation comes to: a batch dispatches the rows that it
processes. -/
def Operation.calls : Operation ε → List (Call ε)
  | .call step => [step.call]
  | .batch b _ _ (.ok report) => (b.events.take report.rowsProcessed).map .dispatch
  | .batch _ _ _ (.error _) => []

/-- The steps that operations come to. -/
def unrolled (r : Registry ε) (ops : List (Operation ε)) : List (Step ε) :=
  (r.performAll (ops.flatMap Operation.calls)).1

theorem run_runRows (chunk : Nat) (cancel : Cancellation) (row : Nat) (requested : Bool)
    (events : List MarketEvent) (r : Registry ε) :
    ∃ steps, Run r steps (r.runRows chunk cancel row requested events).2 ∧
      steps.map (·.call) =
        (events.take (r.runRows chunk cancel row requested events).1.rowsProcessed).map
          .dispatch := by
  induction events generalizing r row requested with
  | nil => exact ⟨[], .nil r, by simp⟩
  | cons event rest ih =>
      unfold runRows
      split
      · exact ⟨[], .nil r, by simp⟩
      · obtain ⟨steps, hrun, hcalls⟩ :=
          ih (row + 1) (requested || (r.dispatch event).cancelled) (r.dispatch event).registry
        refine ⟨⟨.dispatch event, _⟩ :: steps, .cons trivial rfl hrun, ?_⟩
        rw [List.map_cons, hcalls]
        rfl

theorem Performs.unroll {op : Operation ε} (hop : Performs r op r') :
    ∃ steps, Run r steps r' ∧ steps.map (·.call) = op.calls := by
  cases hop with
  | @call _ call a allowed performed => exact ⟨[⟨call, a⟩], .cons allowed performed (.nil r'), rfl⟩
  | @batch _ b chunkSize cancel result ran =>
      unfold runBatch at ran
      split at ran
      · cases ran
        exact ⟨[], .nil r, rfl⟩
      · cases ran
        exact run_runRows _ _ _ _ _ r

/-- A run is what its calls make. -/
theorem Run.performAll_eq {steps : List (Step ε)} (hr : Run r steps r') :
    r.performAll (steps.map (·.call)) = (steps, r') := by
  induction hr with
  | nil => rfl
  | cons _ performed _ ih => simp only [List.map_cons, performAll, performed, ih]

/-- Operations come to a run, a batch being the run of its dispatches. -/
theorem Course.unroll {ops : List (Operation ε)} (hcourse : Course r ops r') :
    Run r (r.unrolled ops) r' := by
  have hrun : ∃ steps, Run r steps r' ∧ steps.map (·.call) = ops.flatMap Operation.calls := by
    induction hcourse with
    | nil r => exact ⟨[], .nil r, rfl⟩
    | cons head _ ih =>
        obtain ⟨steps, hsteps, hcalls⟩ := head.unroll
        obtain ⟨more, hmore, hcalls'⟩ := ih
        exact ⟨steps ++ more, hsteps.append hmore, by
          rw [List.map_append, hcalls, hcalls', List.flatMap_cons]⟩
  obtain ⟨steps, hsteps, hcalls⟩ := hrun
  rw [unrolled, ← hcalls, hsteps.performAll_eq]
  exact hsteps

end

end Registry

end MarketSignals
