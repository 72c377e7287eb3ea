import MarketSignals.Proofs.Batch.Rows
import MarketSignals.Proofs.Registry.Generations

/-!
# The last output

Outputs are kept beside the slots, and four kinds of call write to them.  What is
kept for a handle is nevertheless a matter of what others have seen: of the last
answer that said something about its registration, which is that it was
registered, that it was reset, or that it put out an output.

The estimators may be of any kind, and may remove others while they run.

## Main definitions

* `Operation`, `Course` — calls and batches, and sequences of them.
* `Operation.verdict?` — what an operation says about the last output of a handle.
* `lastOutput` — the last output according to what was said last.

## Main results

* `latest_run`, `latest_feedAll`, `latest_runRows` — what one update, one dispatch
  and one batch leave.
* `Performs.bearsOut`, `Course.bearsOut` — one operation, and a whole course.
* `latest_is_last_output` — the output of a handle after any course.
-/

namespace MarketSignals

/-- The names that an output bears. -/
def SignalOutput.key (o : SignalOutput) : SlotKey := ⟨o.alphaId, o.instrumentId⟩

/-- The last output that bears the given names. -/
def lastNamed (k : SlotKey) (outputs : List SignalOutput) : Option SignalOutput :=
  outputs.reverse.find? (·.key == k)

theorem lastNamed_append (k : SlotKey) (first rest : List SignalOutput) :
    lastNamed k (first ++ rest) = (lastNamed k rest).or (lastNamed k first) := by
  rw [lastNamed, List.reverse_append, List.find?_append]
  rfl

theorem lastNamed_singleton (k : SlotKey) (o : SignalOutput) :
    lastNamed k [o] = if o.key = k then some o else none := by
  simp [lastNamed, List.find?_singleton]

namespace Registry

variable {ε : Type} {r r' : Registry ε} {g h : Handle} {s t : Slot ε} {c c' : Cell ε}
  {k : SlotKey}

/-! ## One update -/

/-- A removal leaves the outputs of the others. -/
theorem latest_deregister (hd : r.deregister g = .ok r') (hlive : r'.arena.isLive h = true) :
    r'.latest[h]? = r.latest[h]? := by
  obtain ⟨s, hs⟩ := Arena.isLive_iff.mp hlive
  have hcell := cell?_of_get? hs
  have hne : h ≠ g := by
    rintro rfl
    rw [cell?_deregister_self hd] at hcell
    cases hcell
  rw [cell?_deregister hd hne] at hcell
  exact (cell?_eq_some_iff.mp hcell).2.symm

/-- What is live after some changes was live before. -/
theorem Changes.isLive (hc : Changes r r') (hlive : r'.arena.isLive h = true) :
    r.arena.isLive h = true := by
  obtain ⟨t, ht⟩ := Arena.isLive_iff.mp hlive
  obtain ⟨s, hs, _⟩ := hc.narrows.get? h t ht
  exact Arena.isLive_iff.mpr ⟨s, hs⟩

/-- The requests of an estimator leave the outputs of those that stay. -/
theorem latest_converse (r : Registry ε) (i : Interaction ε)
    (hlive : (r.converse i).registry.arena.isLive h = true) :
    (r.converse i).registry.latest[h]? = r.latest[h]? := by
  induction i generalizing r with
  | done => rfl
  | deregister alphaId instrumentId resume ih =>
      simp only [converse] at hlive ⊢
      split at hlive
      · next r₁ hd =>
          obtain ⟨g, _, hd⟩ := bind_eq_ok_iff.mp hd
          have hlive₁ := Changes.isLive (changes_converse r₁ (resume (.ok ()))) hlive
          rw [ih _ r₁ hlive, latest_deregister hd hlive₁]
      · exact ih _ r hlive
  | cancelBatch rest ih => exact ih r hlive

/-- An output bears the names of the slot that ran. -/
theorem key_of_run [Estimator ε] {event : MarketEvent} {o : SignalOutput}
    (ho : (r.run h s event).result = .ok o) : o.key = s.key := by
  unfold run at ho
  split at ho
  · cases ho
  · have hkey := key_absorb s ((r.converse (Estimator.update s.estimator event)).result,
      (r.converse (Estimator.update s.estimator event)).state)
    dsimp only at ho
    split at ho
    · cases ho
    · cases ho
      exact hkey

/-- An update that succeeds leaves its output; everything else stays. -/
theorem latest_run [Estimator ε] (event : MarketEvent)
    (hlive : (r.run g s event).registry.arena.isLive h = true) :
    (r.run g s event).registry.latest[h]? =
      (if g = h then (r.run g s event).result.toOption else none).or r.latest[h]? := by
  unfold run at hlive ⊢
  by_cases hdisabled : s.disabled = true
  · simp [if_pos hdisabled, Except.toOption]
  · simp only [if_neg hdisabled] at hlive ⊢
    have hturn := latest_converse (h := h) r (Estimator.update s.estimator event)
    generalize r.converse (Estimator.update s.estimator event) = turn at hlive hturn ⊢
    cases hab : s.absorb (turn.result, turn.state) with
    | mk result slot =>
        cases result with
        | error error =>
            simp only [hab, Registry.store, Arena.isLive_store] at hlive
            simp [Registry.store, Except.toOption, hturn hlive]
        | ok reading =>
            simp only [hab, publish, Registry.store, Arena.isLive_store] at hlive
            simp only [publish, Registry.store, Arena.isLive_store, Except.toOption]
            by_cases hgh : g = h
            · subst hgh
              simp [hlive]
            · have hne : (g == h) = false := beq_eq_false_iff_ne.mpr hgh
              split <;>
                simp [hgh, Std.ExtHashMap.getElem?_insert, Std.ExtHashMap.getElem?_erase, hturn hlive]

theorem latest_update [Estimator ε] (event : MarketEvent)
    (hlive : (r.update g event).2.arena.isLive h = true) :
    (r.update g event).2.latest[h]? =
      (if g = h then (r.update g event).1.toOption else none).or r.latest[h]? := by
  unfold Registry.update at hlive ⊢
  cases hslot : r.slot g with
  | error error => simp [Except.toOption]
  | ok s =>
      simp only [hslot] at hlive ⊢
      by_cases hi : event.instrumentId ≠ s.instrumentId
      · simp [if_pos hi, Except.toOption]
      · simp only [if_neg hi] at hlive ⊢
        by_cases hrefused : (!s.accepts event) = true
        · simp only [if_pos hrefused, Except.toOption, ite_self, Option.none_or]
        · simp only [if_neg hrefused] at hlive ⊢
          exact latest_run event hlive

/-! ## One dispatch -/

/-- A dispatch leaves the last of its outputs under the names of a handle. -/
theorem latest_feedAll [Estimator ε] (event : MarketEvent) (slots : List (Handle × Slot ε))
    (r : Registry ε)
    (hk : ∀ g s, (g, s) ∈ slots → ∀ t, r.arena.get? g = some t → s.key = t.key)
    (hnames : ∀ g s, (g, s) ∈ slots → (g = h ↔ s.key = k))
    (hlive : (feedAll event slots r).registry.arena.isLive h = true) :
    (feedAll event slots r).registry.latest[h]? =
      (lastNamed k (feedAll event slots r).report.outputs).or r.latest[h]? := by
  induction slots generalizing r with
  | nil => rfl
  | cons p rest ih =>
      obtain ⟨g, s⟩ := p
      have hrest : ∀ g s', (g, s') ∈ rest → ∀ t, r.arena.get? g = some t → s'.key = t.key :=
        fun g s' hm => hk g s' (List.mem_cons_of_mem _ hm)
      have hnames' : ∀ g s', (g, s') ∈ rest → (g = h ↔ s'.key = k) :=
        fun g s' hm => hnames g s' (List.mem_cons_of_mem _ hm)
      simp only [feedAll] at hlive ⊢
      by_cases haccepts : s.accepts event = true
      · simp only [if_pos haccepts] at hlive ⊢
        have hrun := changes_run (hk g s List.mem_cons_self) event
        -- The slots are those from the beginning; what is still live has kept its names.
        have hrest' : ∀ g' s', (g', s') ∈ rest →
            ∀ t, (r.run g s event).registry.arena.get? g' = some t → s'.key = t.key := by
          intro g' s' hm t ht
          obtain ⟨t', ht', htt⟩ := (Changes.narrows hrun).get? g' t ht
          rw [hrest g' s' hm t' ht', htt]
        have hlive₁ := Changes.isLive (changes_feedAll event rest _ hrest') hlive
        -- The outputs of the slots behind are later than the one of this slot.
        rw [ih _ hrest' hnames' hlive, latest_run event hlive₁]
        have hgh := hnames g s List.mem_cons_self
        cases hresult : (r.run g s event).result with
        | error error => simp [DispatchReport.record, Except.toOption]
        | ok o =>
            have hkey := key_of_run hresult
            simp only [DispatchReport.record]
            rw [← List.singleton_append, lastNamed_append, lastNamed_singleton, hkey]
            simp [hgh, Except.toOption, Option.or_assoc]
      · simp only [if_neg haccepts] at hlive ⊢
        exact ih r hrest hnames' hlive

theorem latest_dispatch [Estimator ε] (wf : r.WellFormed) {event : MarketEvent}
    (hs : (r.dispatch event).registry.arena.get? h = some s) :
    (r.dispatch event).registry.latest[h]? =
      (lastNamed s.key (r.dispatch event).report.outputs).or r.latest[h]? := by
  obtain ⟨t, ht, hkey⟩ := (changes_dispatch r event).narrows.get? h s hs
  refine latest_feedAll event _ r ?_ ?_ (Arena.isLive_iff.mpr ⟨s, hs⟩)
  · intro g u hm u' hu'
    rw [(mem_slotsOn_iff.mp hm).2] at hu'
    cases hu'
    rfl
  · intro g u hm
    have hu := (mem_slotsOn_iff.mp hm).2
    constructor
    · rintro rfl
      rw [hu] at ht
      cases ht
      exact hkey.symm
    · intro hsame
      exact wf.arena.eq_of_key_eq hu ht (hsame.trans hkey)

/-! ## One batch -/

theorem changes_runRows [Estimator ε] (chunk : Nat) (cancel : Cancellation) (row : Nat)
    (requested : Bool) (events : List MarketEvent) (r : Registry ε) :
    Changes r (r.runRows chunk cancel row requested events).2 := by
  induction events generalizing r row requested with
  | nil => exact .refl
  | cons event rest ih =>
      unfold runRows
      split
      · exact .refl
      · exact (changes_dispatch r event).trans (ih _ _ _)

theorem changes_runBatch [Estimator ε] {b : Batch} {chunkSize : Nat} {cancel : Cancellation}
    {result : Except BatchFault BatchReport} (ran : r.runBatch b chunkSize cancel = (result, r')) :
    Changes r r' := by
  unfold runBatch at ran
  split at ran
  · cases ran
    exact .refl
  · cases ran
    exact changes_runRows _ _ _ _ _ r

/-- A batch leaves the last of its outputs under the names of a handle. -/
theorem latest_runRows [Estimator ε] (chunk : Nat) (cancel : Cancellation) (row : Nat)
    (requested : Bool) (events : List MarketEvent) (r : Registry ε) (wf : r.WellFormed)
    (hs : (r.runRows chunk cancel row requested events).2.arena.get? h = some s) :
    (r.runRows chunk cancel row requested events).2.latest[h]? =
      (lastNamed s.key (r.runRows chunk cancel row requested events).1.outputs).or
        r.latest[h]? := by
  induction events generalizing r row requested with
  | nil => rfl
  | cons event rest ih =>
      unfold runRows at hs ⊢
      split at hs
      · next hstop =>
          rw [if_pos hstop]
          rfl
      · next hstop =>
          rw [if_neg hstop]
          have hdispatch := changes_dispatch r event
          have hrows := changes_runRows chunk cancel (row + 1)
            (requested || (r.dispatch event).cancelled) rest (r.dispatch event).registry
          obtain ⟨t, ht, hkey⟩ := hrows.narrows.get? h s hs
          simp only [BatchReport.record, lastNamed_append, Option.or_assoc]
          rw [ih _ _ _ (hdispatch.wellFormed wf) hs, latest_dispatch wf ht, hkey]

/-! ## Operations -/

/-- A call on a registry or a batch run on it, with what came of it. -/
inductive Operation (ε : Type) where
  | call (step : Step ε)
  | batch (b : Batch) (chunkSize : Nat) (cancel : Cancellation)
      (result : Except BatchFault BatchReport)

/-- An operation leads from one registry to another. -/
inductive Performs [AlphaHost ε] : Registry ε → Operation ε → Registry ε → Prop
  | call {r r' : Registry ε} {call : Call ε} {a : Answer} (allowed : call.Allowed r)
      (performed : r.perform call = (a, r')) : Performs r (.call ⟨call, a⟩) r'
  | batch {r r' : Registry ε} {b : Batch} {chunkSize : Nat} {cancel : Cancellation}
      {result : Except BatchFault BatchReport}
      (ran : r.runBatch b chunkSize cancel = (result, r')) :
      Performs r (.batch b chunkSize cancel result) r'

/-- Operations one after the other. -/
inductive Course [AlphaHost ε] : Registry ε → List (Operation ε) → Registry ε → Prop
  | nil (r : Registry ε) : Course r [] r
  | cons {r r' r'' : Registry ε} {op : Operation ε} {rest : List (Operation ε)}
      (head : Performs r op r') (tail : Course r' rest r'') : Course r (op :: rest) r''

/-- What an operation says about the last output of a handle whose names are `k`:
that there is none any more, since the handle was given out or its estimator was
reset, or that it is a certain output.  Most operations say nothing about it.  The
outputs of dispatches and batches bear names and no handle. -/
def Operation.verdict? (h : Handle) (k : SlotKey) : Operation ε → Option (Option SignalOutput)
  | .call ⟨_, .ok (.handle g)⟩ => if g = h then some none else none
  | .call ⟨.reset g, .ok _⟩ => if g = h then some none else none
  | .call ⟨.update g _, .ok (.output o)⟩ => if g = h then some (some o) else none
  | .call ⟨.dispatch _, .ok (.report d)⟩ => (lastNamed k d.outputs).map some
  | .batch _ _ _ (.ok report) => (lastNamed k report.outputs).map some
  | _ => none

/-- The last that was said about the last output of a handle. -/
def lastVerdict? (h : Handle) (k : SlotKey) (ops : List (Operation ε)) :
    Option (Option SignalOutput) :=
  ops.reverse.findSome? (·.verdict? h k)

/-- The output that the last successful update of a registration gave, if it gave
one since it was registered and reset. -/
def lastOutput (h : Handle) (k : SlotKey) (ops : List (Operation ε)) : Option SignalOutput :=
  (lastVerdict? h k ops).join

theorem lastVerdict?_cons (h : Handle) (k : SlotKey) (op : Operation ε)
    (rest : List (Operation ε)) :
    lastVerdict? h k (op :: rest) = (lastVerdict? h k rest).or (op.verdict? h k) := by
  rw [lastVerdict?, List.reverse_cons, List.findSome?_append]
  simp [lastVerdict?]

/-- A cell bears a verdict out: its output is that of the verdict or, without one,
the output that the handle had before under the same names. -/
structure BearsOut (r : Registry ε) (h : Handle) (verdict? : Option (Option SignalOutput))
    (c : Cell ε) : Prop where
  settled : ∀ latest, verdict? = some latest → c.latest = latest
  kept : verdict? = none → ∃ d, r.cell? h = some d ∧ d.slot.key = c.slot.key ∧
    d.latest = c.latest

/-- Changes bring no new slot in, so it is enough to look at the outputs. -/
theorem BearsOut.of_changes {verdict? : Option (Option SignalOutput)} (hc : Changes r r')
    (hcell : r'.cell? h = some c) (hlatest : r'.latest[h]? = verdict?.getD r.latest[h]?) :
    r.BearsOut h verdict? c := by
  obtain ⟨hs, hl⟩ := cell?_eq_some_iff.mp hcell
  rw [hl] at hlatest
  constructor
  · rintro latest rfl
    exact hlatest
  · rintro rfl
    obtain ⟨s, hs', hkey⟩ := hc.narrows.get? h c.slot hs
    exact ⟨⟨s, r.latest[h]?⟩, cell?_eq_some_iff.mpr ⟨hs', rfl⟩, hkey.symm, hlatest.symm⟩

theorem BearsOut.refl (hcell : r.cell? h = some c) : r.BearsOut h none c where
  settled := fun _ heq => by cases heq
  kept := fun _ => ⟨c, hcell, rfl, rfl⟩

/-- A new registration says that there is no output for its handle. -/
theorem bearsOut_enrols [AlphaHost ε] (wf : r.WellFormed) {call : Call ε}
    (hp : r.perform call = (.ok (.handle g), r')) (he : Enrols r g r')
    (hcell : r'.cell? h = some c) :
    r.BearsOut h (if g = h then some none else none) c := by
  by_cases hgh : g = h
  · subst hgh
    rw [if_pos rfl]
    obtain ⟨s, hnew, _⟩ := cell?_of_issued wf hp
    rw [hnew] at hcell
    cases hcell
    exact ⟨fun latest heq => Option.some.inj heq, fun heq => by cases heq⟩
  · rw [if_neg hgh]
    obtain ⟨s, _, hins⟩ := he.inserted
    have hget := wf.arena.get?_insert hins h
    rw [if_neg (Ne.symm hgh)] at hget
    have hsame : r.cell? h = some c := by
      rw [← hcell, cell?, cell?, hget, he.latest_eq]
    exact .refl hsame

theorem latest_callSlot {β : Type} (r : Registry ε) (h : Handle)
    (call : ε → Except Fault β × ε) : (r.callSlot h call).2.latest = r.latest := by
  unfold callSlot
  split <;> rfl

/-- A reset that succeeds forgets the output; one that fails forgets nothing. -/
theorem latest_reset [Estimator ε] (r : Registry ε) (g h : Handle) :
    (r.reset g).2.latest[h]? =
      match (r.reset g).1 with
      | .ok _ => if g = h then none else r.latest[h]?
      | .error _ => r.latest[h]? := by
  unfold Registry.reset
  cases hslot : r.slot g with
  | error error => rfl
  | ok s =>
      cases hreset : s.reset with
      | mk result s' =>
          cases result with
          | ok u => simp [hreset, Std.ExtHashMap.getElem?_erase]
          | error error => simp [hreset, Registry.store]

theorem getD_map_some (o? latest : Option SignalOutput) :
    (o?.map some).getD latest = o?.or latest := by
  cases o? <;> rfl

/-- After a batch every cell bears out what the batch has said about it. -/
theorem bearsOut_runBatch [AlphaHost ε] (wf : r.WellFormed) {b : Batch} {chunkSize : Nat}
    {cancel : Cancellation} {result : Except BatchFault BatchReport}
    (ran : r.runBatch b chunkSize cancel = (result, r')) (hcell : r'.cell? h = some c) :
    r.BearsOut h ((Operation.batch (ε := ε) b chunkSize cancel result).verdict? h c.slot.key) c := by
  obtain ⟨hs, _⟩ := cell?_eq_some_iff.mp hcell
  refine .of_changes (changes_runBatch ran) hcell ?_
  unfold runBatch at ran
  cases hschema : b.validateSchema (r.infosOn b.instrumentId) with
  | error fault =>
      rw [hschema] at ran
      cases ran
      rfl
  | ok u =>
      rw [hschema] at ran
      cases ran
      exact (latest_runRows _ _ _ _ _ r wf hs).trans (getD_map_some _ _).symm

/-- A call on one estimator answers with what comes of it. -/
theorem answered_eq {β : Type} {f : β → Reply} {a : Answer} (x : Except EngineError β × Registry ε)
    (hx : x.map (answer f) id = (a, r')) : a = answer f x.1 ∧ r' = x.2 := by
  cases hx
  exact ⟨rfl, rfl⟩

theorem verdict?_update (g : Handle) (event : MarketEvent) (x : Except EngineError SignalOutput) :
    (Operation.call (⟨.update g event, answer .output x⟩ : Step ε)).verdict? h k =
      (if g = h then x.toOption else none).map some := by
  cases x with
  | error error => simp [answer, Operation.verdict?, Except.toOption]
  | ok o => by_cases hgh : g = h <;> simp [hgh, answer, Operation.verdict?, Except.toOption]

theorem verdict?_reset (g : Handle) (x : Except EngineError Unit) :
    (Operation.call (⟨.reset g, answer (fun _ => .done) x⟩ : Step ε)).verdict? h k =
      match x with
      | .ok _ => if g = h then some none else none
      | .error _ => none := by
  cases x <;> rfl

/-- After a call every cell bears out what its answer has said about it. -/
theorem bearsOut_perform [AlphaHost ε] {call : Call ε} {a : Answer} (wf : r.WellFormed)
    (allowed : call.Allowed r) (performed : r.perform call = (a, r'))
    (hcell : r'.cell? h = some c) :
    r.BearsOut h ((Operation.call ⟨call, a⟩).verdict? h c.slot.key) c := by
  obtain ⟨hs, hl⟩ := cell?_eq_some_iff.mp hcell
  have hlive : r'.arena.isLive h = true := Arena.isLive_iff.mpr ⟨_, hs⟩
  cases call with
  | register alphaId i config =>
      rcases enrolled_eq performed with ⟨g, hreg, rfl⟩ | ⟨fault, _, rfl, rfl⟩
      · exact bearsOut_enrols wf performed (enrols_register hreg) hcell
      · exact .refl hcell
  | registerEstimator alphaId i estimator =>
      rcases enrolled_eq performed with ⟨g, hreg, rfl⟩ | ⟨fault, _, rfl, rfl⟩
      · exact bearsOut_enrols wf performed (enrols_registerEstimator hreg) hcell
      · exact .refl hcell
  | deregister g =>
      rcases removed_eq performed with ⟨hd, rfl⟩ | ⟨error, _, rfl, rfl⟩
      · exact .of_changes (changes_deregister hd) hcell (latest_deregister hd hlive)
      · exact .refl hcell
  | clear order =>
      cases performed
      rw [wf.clearInOrder_empties allowed] at hs
      cases hs
  | dispatch event =>
      cases performed
      exact .of_changes (changes_dispatch r event) hcell
        ((latest_dispatch wf hs).trans (getD_map_some _ _).symm)
  | update g event =>
      obtain ⟨rfl, rfl⟩ := answered_eq (r.update g event) performed
      rw [verdict?_update]
      exact .of_changes (changes_update r g event) hcell
        ((latest_update event hlive).trans (getD_map_some _ _).symm)
  | reset g =>
      obtain ⟨rfl, rfl⟩ := answered_eq (r.reset g) performed
      rw [verdict?_reset]
      refine .of_changes (changes_reset r g) hcell ((latest_reset r g h).trans ?_)
      cases (r.reset g).1 with
      | error error => rfl
      | ok u => by_cases hgh : g = h <;> simp [hgh]
  | rebase g =>
      obtain ⟨rfl, rfl⟩ := answered_eq (r.rebase g) performed
      have hlatest : (r.rebase g).2.latest = r.latest := latest_callSlot r g _
      cases (r.rebase g).1 <;>
        exact .of_changes (changes_rebase r g) hcell (by rw [hlatest]; rfl)
  | referenceBinning g =>
      obtain ⟨rfl, rfl⟩ := answered_eq (r.referenceBinning g) performed
      have hlatest : (r.referenceBinning g).2.latest = r.latest := latest_callSlot r g _
      cases (r.referenceBinning g).1 <;>
        exact .of_changes (changes_referenceBinning r g) hcell (by rw [hlatest]; rfl)
  | installReference g counts =>
      obtain ⟨rfl, rfl⟩ := answered_eq (r.installReference g counts) performed
      have hlatest : (r.installReference g counts).2.latest = r.latest := latest_callSlot r g _
      cases (r.installReference g counts).1 <;>
        exact .of_changes (changes_installReference r g counts) hcell (by rw [hlatest]; rfl)
  | latest g =>
      cases performed
      cases r.latestOf g <;> exact .refl hcell

/-! ## Courses -/

/-- After an operation every cell bears out what the operation has said about it. -/
theorem Performs.bearsOut [AlphaHost ε] {op : Operation ε} (wf : r.WellFormed)
    (hop : Performs r op r') (hcell : r'.cell? h = some c) :
    r.BearsOut h (op.verdict? h c.slot.key) c := by
  cases hop with
  | call allowed performed => exact bearsOut_perform wf allowed performed hcell
  | batch ran => exact bearsOut_runBatch wf ran hcell

theorem Performs.wellFormed [AlphaHost ε] {op : Operation ε} (hop : Performs r op r')
    (wf : r.WellFormed) : r'.WellFormed := by
  cases hop with
  | call _ performed => exact perform_wellFormed wf performed
  | batch ran => exact (changes_runBatch ran).wellFormed wf

/-- What was said last is borne out, if later operations are and say nothing. -/
theorem BearsOut.or {first later : Option (Option SignalOutput)}
    (hlater : r'.BearsOut h later c)
    (hfirst : ∀ d, r'.cell? h = some d → d.slot.key = c.slot.key → r.BearsOut h first d) :
    r.BearsOut h (later.or first) c := by
  cases later with
  | some latest =>
      rw [Option.some_or]
      exact ⟨hlater.settled, fun heq => by cases heq⟩
  | none =>
      rw [Option.none_or]
      obtain ⟨d, hd, hkey, hlatest⟩ := hlater.kept rfl
      have hd' := hfirst d hd hkey
      constructor
      · intro latest heq
        exact hlatest.symm.trans (hd'.settled latest heq)
      · intro heq
        obtain ⟨e, he, hkey', hlatest'⟩ := hd'.kept heq
        exact ⟨e, he, hkey'.trans hkey, hlatest'.trans hlatest⟩

/-- After a course every cell bears out what was said last about it. -/
theorem Course.bearsOut [AlphaHost ε] {ops : List (Operation ε)} (hcourse : Course r ops r')
    (wf : r.WellFormed) (hcell : r'.cell? h = some c) :
    r.BearsOut h (lastVerdict? h c.slot.key ops) c := by
  induction hcourse with
  | nil => exact .refl hcell
  | cons head _ ih =>
      rw [lastVerdict?_cons]
      refine (ih (head.wellFormed wf) hcell).or fun d hd hkey => ?_
      rw [← hkey]
      exact head.bearsOut wf hd

theorem Course.wellFormed [AlphaHost ε] {ops : List (Operation ε)} (hcourse : Course r ops r')
    (wf : r.WellFormed) : r'.WellFormed := by
  induction hcourse with
  | nil => exact wf
  | cons head _ ih => exact ih (head.wellFormed wf)

/-! ## What ends a registration -/

/-- Whether an operation may end the registration of a handle: it removes it, or it
feeds events to estimators, which may ask for that. -/
def Operation.MayRemove (h : Handle) : Operation ε → Prop
  | .call ⟨.deregister g, _⟩ => g = h
  | .call ⟨.clear _, _⟩ | .call ⟨.update _ _, _⟩ | .call ⟨.dispatch _, _⟩ | .batch .. => True
  | _ => False

theorem isLive_callSlot {β : Type} (r : Registry ε) (g : Handle)
    (call : ε → Except Fault β × ε) :
    (r.callSlot g call).2.arena.isLive h = r.arena.isLive h := by
  unfold callSlot
  split
  · rfl
  · exact Arena.isLive_store _ _ _ _

theorem isLive_reset [Estimator ε] (r : Registry ε) (g : Handle) :
    (r.reset g).2.arena.isLive h = r.arena.isLive h := by
  unfold Registry.reset
  split
  · rfl
  · split <;> exact Arena.isLive_store _ _ _ _

/-- A new registration ends no other. -/
theorem isLive_enrols (wf : r.WellFormed) (he : Enrols r g r') (hlive : r.arena.isLive h = true) :
    r'.arena.isLive h = true := by
  obtain ⟨s, hs⟩ := Arena.isLive_iff.mp hlive
  have hcell := cell?_enrols wf he (cell?_of_get? hs)
  exact Arena.isLive_iff.mpr ⟨s, (cell?_eq_some_iff.mp hcell).1⟩

/-- The other operations end no registration. -/
theorem Performs.isLive [AlphaHost ε] {op : Operation ε} (wf : r.WellFormed)
    (hop : Performs r op r') (hkept : ¬ op.MayRemove h) (hlive : r.arena.isLive h = true) :
    r'.arena.isLive h = true := by
  cases hop with
  | batch ran => exact absurd trivial hkept
  | @call _ call a _ performed =>
      cases call with
      | clear | update | dispatch => exact absurd trivial hkept
      | register alphaId i config =>
          rcases enrolled_eq performed with ⟨g, hreg, _⟩ | ⟨_, _, _, rfl⟩
          · exact isLive_enrols wf (enrols_register hreg) hlive
          · exact hlive
      | registerEstimator alphaId i estimator =>
          rcases enrolled_eq performed with ⟨g, hreg, _⟩ | ⟨_, _, _, rfl⟩
          · exact isLive_enrols wf (enrols_registerEstimator hreg) hlive
          · exact hlive
      | deregister g =>
          rcases removed_eq performed with ⟨hd, _⟩ | ⟨_, _, _, rfl⟩
          · have hne : g ≠ h := hkept
            have hcell := cell?_deregister hd hne.symm
            obtain ⟨s, hs⟩ := Arena.isLive_iff.mp hlive
            rw [cell?_of_get? hs] at hcell
            exact Arena.isLive_iff.mpr ⟨s, (cell?_eq_some_iff.mp hcell).1⟩
          · exact hlive
      | reset g =>
          obtain ⟨_, rfl⟩ := answered_eq (r.reset g) performed
          exact (isLive_reset r g).trans hlive
      | rebase g =>
          obtain ⟨_, rfl⟩ := answered_eq (r.rebase g) performed
          exact (isLive_callSlot r g _).trans hlive
      | referenceBinning g =>
          obtain ⟨_, rfl⟩ := answered_eq (r.referenceBinning g) performed
          exact (isLive_callSlot r g _).trans hlive
      | installReference g counts =>
          obtain ⟨_, rfl⟩ := answered_eq (r.installReference g counts) performed
          exact (isLive_callSlot r g _).trans hlive
      | latest g =>
          cases performed
          exact hlive

/-- A handle that stays live keeps its names. -/
theorem Performs.key_eq [AlphaHost ε] {op : Operation ε} (wf : r.WellFormed)
    (hop : Performs r op r') (hs : r.arena.get? h = some s) (ht : r'.arena.get? h = some t) :
    t.key = s.key := by
  have hnarrows : Changes r r' → t.key = s.key := by
    intro hchanges
    obtain ⟨s', hs', hkey⟩ := hchanges.narrows.get? h t ht
    rw [hs] at hs'
    cases hs'
    exact hkey
  cases hop with
  | batch ran => exact hnarrows (changes_runBatch ran)
  | call _ performed =>
      rcases perform_cases performed with ⟨g, _, he⟩ | ⟨_, hchanges⟩
      · have hcell := cell?_enrols wf he (cell?_of_get? hs)
        have ht' := (cell?_eq_some_iff.mp hcell).1
        rw [ht] at ht'
        cases ht'
        rfl
      · exact hnarrows hchanges

/-! ## The last output of a handle -/

theorem latestOf_of_cell (hcell : r.cell? h = some c) : r.latestOf h = .ok c.latest := by
  unfold latestOf
  rw [slot_of_cell hcell, ← (cell?_eq_some_iff.mp hcell).2]
  rfl

theorem latestOf_of_no_cell (hcell : r.cell? h = none) : r.latestOf h = .error (staleError h) := by
  unfold latestOf
  rw [slot_of_no_cell hcell]
  rfl

/-- The last output of a handle is the last output that its registration has given.
After any course of calls and batches:

1. a handle that reaches nothing is not found;
2. for any other the output is that of the last successful update, single, in a
   dispatch or in a batch, if there was one since the handle was given out and since
   the last successful reset, and there is none otherwise;
3. so there is none for a handle that is given out, whoever was there before;
4. an operation that says nothing about the handle leaves its output as it was,
   unless the registration ends. -/
theorem latest_is_last_output [AlphaHost ε] {ops : List (Operation ε)}
    (hcourse : Course .empty ops r) (h : Handle) :
    (r.arena.get? h = none →
      r.latestOf h = .error (staleError h) ∧ (staleError h).code = .notFound) ∧
    (∀ s, r.arena.get? h = some s → r.latestOf h = .ok (lastOutput h s.key ops)) ∧
    (∀ call r', r.perform call = (.ok (.handle h), r') → r'.latestOf h = .ok none) ∧
    ∀ op r' s, Performs r op r' → r.arena.get? h = some s → op.verdict? h s.key = none →
      r'.arena.isLive h = true ∨ ¬ op.MayRemove h → r'.latestOf h = r.latestOf h := by
  have wf₀ : (empty : Registry ε).WellFormed := empty_logged.wellFormed
  have wf : r.WellFormed := hcourse.wellFormed wf₀
  refine ⟨?_, ?_, ?_, ?_⟩
  · intro hnone
    have hcell : r.cell? h = none := by rw [cell?, hnone, Option.map_none]
    exact ⟨latestOf_of_no_cell hcell, rfl⟩
  · intro s hs
    have hcell := cell?_of_get? hs
    have hbears := hcourse.bearsOut wf₀ hcell
    rw [latestOf_of_cell hcell, lastOutput]
    cases hverdict : lastVerdict? h s.key ops with
    | some latest => rw [hbears.settled latest hverdict, Option.join_some]
    | none =>
        -- Something was said of the handle, since nothing is live in the beginning.
        obtain ⟨d, hd, _⟩ := hbears.kept hverdict
        have hempty := (cell?_eq_some_iff.mp hd).1
        rw [empty, Arena.get?_empty] at hempty
        cases hempty
  · intro call r' hissued
    obtain ⟨s, hcell, _⟩ := cell?_of_issued wf hissued
    exact latestOf_of_cell hcell
  · intro op r' s hop hs hsilent hkept
    have hlive : r.arena.isLive h = true := Arena.isLive_iff.mpr ⟨s, hs⟩
    have hlive' : r'.arena.isLive h = true := hkept.elim id fun hnot => hop.isLive wf hnot hlive
    obtain ⟨t, ht⟩ := Arena.isLive_iff.mp hlive'
    have hcell := cell?_of_get? ht
    rw [← hop.key_eq wf hs ht] at hsilent
    obtain ⟨d, hd, _, hlatest⟩ := (hop.bearsOut wf hcell).kept hsilent
    rw [latestOf_of_cell hcell, latestOf_of_cell hd, hlatest]

/-! ### A course in which an estimator breaks off -/

/-- The first slot goes into a new entry. -/
theorem insert_empty {δ : Type} (s : Slot δ) :
    (Arena.empty : Arena δ).insert s = .ok (⟨0, 0⟩, (solo s).arena) := by
  have hnone : (∅ : Std.ExtHashMap InstrumentId (List Handle)).getD s.key.instrumentId [] = [] :=
    Std.ExtHashMap.getD_empty
  have hlink : ((⟨#[⟨0, some s⟩], [], ∅, ∅⟩ : Arena δ).link ⟨0, 0⟩ s.key) = (solo s).arena := by
    unfold Arena.link Arena.handlesOn
    rw [hnone]
    rfl
  rw [← hlink]
  rfl

/-- An estimator on `X` that gives one reading and then breaks off. -/
def faultySlot : Slot (Alpha ⊕ Scripted) where
  alphaId := ⟨"a"⟩
  instrumentId := ⟨"X"⟩
  kind := .ofi
  requiredFields := []
  estimator :=
    .inr { kind := .ofi, requiredFields := [], script := [.succeed, .breakOff (.text "gone")] }
  disabled := false

/-- A batch with one quote. -/
def oneQuote : Batch where
  instrumentId := ⟨"X"⟩
  timestamps := #[1]
  bidPrice := #[99]
  bidSize := #[10]
  askPrice := #[101]
  askSize := #[5]
  tradePrice := none
  tradeSize := none

/-- The output that the reading of its only row gives. -/
def onlyOutput : SignalOutput :=
  .ofReading ⟨"a"⟩ ⟨"X"⟩ ⟨1⟩ ⟨Float.ofNat 1, .ready, .ofi 0 0 0⟩

theorem perform_faulty :
    (empty : Registry (Alpha ⊕ Scripted)).perform
      (.registerEstimator ⟨"a"⟩ ⟨"X"⟩ faultySlot.estimator) =
      (.ok (.handle ⟨0, 0⟩), solo faultySlot) := by
  have hnew : (empty : Registry (Alpha ⊕ Scripted)).arena.byKey.contains faultySlot.key = false :=
    Std.ExtHashMap.contains_empty
  exact perform_registerEstimator hnew rfl (insert_empty faultySlot)

/-- The batch gives the reading, and on the next event the estimator breaks off. -/
theorem runBatch_oneQuote : ∃ r₁ r₂ : Registry (Alpha ⊕ Scripted),
    (solo faultySlot).runBatch oneQuote 1 .never =
      (.ok { outputs := [onlyOutput], rowsProcessed := 1 }, r₁) ∧
    r₁.perform (.update ⟨0, 0⟩ (quote "X" 12)) =
      (.error (.refused (Slot.panicError (.text "gone"))), r₂) ∧
    ∃ s, r₂.arena.get? ⟨0, 0⟩ = some s ∧ s.key = faultySlot.key := by
  have hslots : (solo faultySlot).slotsOn ⟨"X"⟩ = [(⟨0, 0⟩, faultySlot)] := slotsOn_solo faultySlot
  have hsound : ¬ oneQuote.Flawed ((solo faultySlot).slotsOn oneQuote.instrumentId) := by
    rw [show oneQuote.instrumentId = ⟨"X"⟩ from rfl, hslots, ← Batch.validateSchema_eq_ok_iff]
    rfl
  have hevents : oneQuote.events = [quote "X" 10] := rfl
  have hdispatch : (solo faultySlot).dispatch (quote "X" 10) =
      feedAll (quote "X" 10) [(⟨0, 0⟩, faultySlot)] (solo faultySlot) := by
    rw [dispatch, ← hslots]
    rfl
  have hrun := runBatch_of_down hsound 1 .never fun _ _ => rfl
  rw [hevents] at hrun
  simp only [reportEach, afterEach, dispatchEach, hdispatch, List.map_cons, List.map_nil,
    List.foldl_cons, List.foldl_nil] at hrun
  exact ⟨_, _, hrun, rfl, _, rfl, rfl⟩

theorem latest_is_last_output_faulty :
    ∃ ops r, Course (.empty : Registry (Alpha ⊕ Scripted)) ops r ∧ ops.length = 3 ∧
      r.latestOf ⟨0, 0⟩ = .ok (some onlyOutput) := by
  obtain ⟨r₁, r₂, ran, performed, s, hs, hkey⟩ := runBatch_oneQuote
  have hfirst : Performs (.empty : Registry (Alpha ⊕ Scripted))
      (.call ⟨.registerEstimator ⟨"a"⟩ ⟨"X"⟩ faultySlot.estimator, .ok (.handle ⟨0, 0⟩)⟩)
      (solo faultySlot) := .call trivial perform_faulty
  have hlast : Performs r₁ (.call ⟨.update ⟨0, 0⟩ (quote "X" 12),
      .error (.refused (Slot.panicError (.text "gone")))⟩) r₂ := .call trivial performed
  have hcourse := Course.cons hfirst (.cons (.batch ran) (.cons hlast (.nil r₂)))
  refine ⟨_, r₂, hcourse, rfl, ?_⟩
  rw [(latest_is_last_output hcourse ⟨0, 0⟩).2.1 s hs, hkey]
  rfl

end Registry

end MarketSignals
