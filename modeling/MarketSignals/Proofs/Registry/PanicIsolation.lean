import MarketSignals.Proofs.Registry.Turns

/-!
# Panics stay with the estimator that caused them

A slot is disabled by a panic and enabled by a reset that succeeds.  What its flag
says is therefore a matter of history: that the last thing to happen to the
estimator, of those that count, was a panic.  Three facts about one call carry this
over every course: a call of the estimator that breaks off sets the flag, a reset
that succeeds and a registration clear it, and nothing else touches it.

The estimators may be of any kind.  They may break off in any of their calls, and
remove others while they run.

## Main definitions

* `Conduct`, `Cell.conduct`, `conducts` — what becomes of an estimator in the course
  of one call, and of one call after the other.
* `BrokenOff` — the history of an estimator whose slot is disabled.
* `Shut` — how a disabled slot answers.
* `KeepsApart` — a dispatch that reports and feeds its estimators one by one.

## Main results

* `perform_conduct` — one call.
* `disabled_iff_brokenOff`, `latest_of_shut` — runs.
* `panics_contained` — all of it, for every course.
-/

namespace MarketSignals

/-! ## What becomes of an estimator -/

/-- What becomes of an estimator in the course of a call. -/
inductive Conduct where
  /-- It is registered. -/
  | enrolled
  /-- It is not called. -/
  | idle
  /-- It is called through its slot and gives a result or an error. -/
  | returned
  /-- It breaks off, in a call through its slot or in a reset. -/
  | brokeOff
  /-- It is reset. -/
  | restarted
  deriving DecidableEq

namespace Conduct

/-- How an estimator has taken a call through its slot. -/
def ofResult {β : Type} : Except Fault β → Conduct
  | .error (.panicked _) => brokeOff
  | _ => returned

/-- The flag of a slot after a call, given the flag before. -/
def flag (before : Bool) : Conduct → Bool
  | brokeOff => true
  | enrolled | restarted => false
  | idle | returned => before

theorem flag_eq_true_iff (before : Bool) (m : Conduct) :
    m.flag before = true ↔ m = brokeOff ∨ (before = true ∧ m ≠ enrolled ∧ m ≠ restarted) := by
  cases m <;> simp [flag]

end Conduct

/-- The estimator has broken off since it was registered, and no reset has succeeded
since it did so last. -/
def BrokenOff (history : List Conduct) : Prop :=
  ∃ earlier later, history = earlier ++ .brokeOff :: later ∧
    .enrolled ∉ later ∧ .restarted ∉ later

/-- The flag that a call leaves follows the history. -/
theorem brokenOff_append_singleton (history : List Conduct) (m : Conduct) :
    BrokenOff (history ++ [m]) ↔
      m = .brokeOff ∨ (BrokenOff history ∧ m ≠ .enrolled ∧ m ≠ .restarted) := by
  constructor
  · rintro ⟨earlier, later, heq, henrolled, hrestarted⟩
    rcases List.eq_nil_or_concat later with rfl | ⟨later, m', rfl⟩
    · have hlast := congrArg List.getLast? heq
      simp only [List.getLast?_append, List.getLast?_singleton, Option.some_or,
        Option.some.injEq] at hlast
      exact .inl hlast
    · rw [List.concat_eq_append, ← List.cons_append, ← List.append_assoc] at heq
      obtain ⟨rfl, hm⟩ := List.append_inj' heq rfl
      cases hm
      simp only [List.concat_eq_append, List.mem_append, List.mem_singleton, not_or]
        at henrolled hrestarted
      exact .inr ⟨⟨earlier, later, rfl, henrolled.1, hrestarted.1⟩, Ne.symm henrolled.2,
        Ne.symm hrestarted.2⟩
  · rintro (rfl | ⟨⟨earlier, later, rfl, henrolled, hrestarted⟩, hm, hm'⟩)
    · exact ⟨history, [], rfl, by simp, by simp⟩
    · refine ⟨earlier, later ++ [m], by simp, ?_, ?_⟩
      · simpa [henrolled] using hm.symm
      · simpa [hrestarted] using hm'.symm

variable {ε : Type}

namespace Cell

/-- What becomes of an estimator that is called through its slot, given the result it
has. -/
def guardedConduct {β : Type} (c : Cell ε) (result : Except Fault β) : Conduct :=
  if c.slot.disabled then .idle else .ofResult result

variable [Estimator ε]

/-- What becomes of the estimator of a cell that is fed an event. -/
def fedConduct (c : Cell ε) (event : MarketEvent) : Conduct :=
  c.guardedConduct (Estimator.update c.slot.estimator event).outcome.1

/-- What becomes of the estimator of a cell. -/
def conduct (c : Cell ε) : Concern → Conduct
  | .event event => if c.slot.accepts event then c.fedConduct event else .idle
  | .touch (.update event) =>
      if event.instrumentId ≠ c.slot.instrumentId then .idle
      else if !c.slot.accepts event then .idle
      else c.fedConduct event
  | .touch .reset =>
      match (Estimator.reset c.slot.estimator).1 with
      | .ok _ => .restarted
      | .error _ => .brokeOff
  | .touch .rebase => c.guardedConduct (Estimator.rebase c.slot.estimator).1
  | .touch .referenceBinning => c.guardedConduct (binningOf c.slot.estimator).1
  | .touch (.installReference counts) =>
      c.guardedConduct (Estimator.installReference c.slot.estimator counts).1
  | .touch .latest => .idle

/-! ### One call on a cell -/

/-- A call has the flag set that goes with it, and a slot that it leaves disabled
keeps the output. -/
structure Marks (c : Cell ε) (m : Conduct) (c' : Cell ε) : Prop where
  disabled : c'.slot.disabled = m.flag c.slot.disabled
  latest : c'.slot.disabled = true → c'.latest = c.latest

omit [Estimator ε] in
theorem marks_idle (c : Cell ε) : c.Marks .idle c := ⟨rfl, fun _ => rfl⟩

omit [Estimator ε] in
theorem marks_guarded {β : Type} (c : Cell ε) (call : ε → Except Fault β × ε) :
    c.Marks (c.guardedConduct (call c.slot.estimator).1) (c.through call).2 := by
  unfold guardedConduct through Slot.guarded
  by_cases hd : c.slot.disabled = true
  · rw [if_pos hd, if_pos hd]
    exact marks_idle c
  · rw [if_neg hd, if_neg hd]
    cases hcall : call c.slot.estimator with
    | mk result estimator =>
        cases result with
        | ok x => exact ⟨rfl, fun _ => rfl⟩
        | error fault => cases fault <;> exact ⟨rfl, fun _ => rfl⟩

theorem marks_feed (c : Cell ε) (event : MarketEvent) :
    c.Marks (c.fedConduct event) (c.feed event).2 := by
  unfold fedConduct guardedConduct feed
  by_cases hd : c.slot.disabled = true
  · rw [if_pos hd, if_pos hd]
    exact marks_idle c
  · rw [if_neg hd, if_neg hd]
    cases houtcome : (Estimator.update c.slot.estimator event).outcome with
    | mk result estimator =>
        cases result with
        | ok reading => exact ⟨rfl, fun htrue => absurd htrue hd⟩
        | error fault => cases fault <;> exact ⟨rfl, fun _ => rfl⟩

theorem marks_reset (c : Cell ε) : c.Marks (c.conduct (.touch .reset)) c.reset.2 := by
  unfold conduct reset Slot.reset
  cases hreset : Estimator.reset c.slot.estimator with
  | mk result estimator =>
      cases result with
      | ok u => exact ⟨rfl, fun htrue => by cases htrue⟩
      | error panic => exact ⟨rfl, fun _ => rfl⟩

theorem marks_respond (c : Cell ε) (k : Concern) : c.Marks (c.conduct k) (c.respond k).2 := by
  cases k with
  | event event =>
      show c.Marks (if c.slot.accepts event then c.fedConduct event else .idle) (c.offer event).2
      unfold offer
      split
      · exact marks_feed c event
      · exact marks_idle c
  | touch t =>
      cases t with
      | update event =>
          show c.Marks (if event.instrumentId ≠ c.slot.instrumentId then .idle
            else if !c.slot.accepts event then .idle else c.fedConduct event) (c.update event).2
          unfold update
          split
          · exact marks_idle c
          · split
            · exact marks_idle c
            · exact marks_feed c event
      | reset => exact marks_reset c
      | rebase => exact marks_guarded c Estimator.rebase
      | referenceBinning => exact marks_guarded c binningOf
      | installReference counts => exact marks_guarded c (Estimator.installReference · counts)
      | latest => exact marks_idle c

/-- What becomes of the estimator of a cell amid a registry. -/
def conductIn (r : Registry ε) (c : Cell ε) (k : Concern) : Conduct := @conduct ε r.settledIn c k

theorem marks_respondIn (r : Registry ε) (c : Cell ε) (k : Concern) :
    c.Marks (c.conductIn r k) (c.respondIn r k).2 :=
  @marks_respond ε r.settledIn c k

end Cell

namespace Registry

variable {r r' : Registry ε} {h : Handle} {s : Slot ε} {c c' : Cell ε} {event : MarketEvent}

/-! ## One call -/

theorem disabled_of_slotOf [Estimator ε] {alphaId : AlphaId} {i : InstrumentId} {estimator : ε}
    (hs : Slot.of alphaId i estimator = .ok s) : s.disabled = false := by
  obtain ⟨_, _, hs⟩ := bind_eq_ok_iff.mp hs
  obtain ⟨_, _, hs⟩ := bind_eq_ok_iff.mp hs
  cases hs
  rfl

section

variable [AlphaHost ε] {call : Call ε} {a : Answer} {steps : List (Step ε)}

/-- What becomes of the estimator of a handle in the course of a call. -/
def conduct (r : Registry ε) (h : Handle) (call : Call ε) : Conduct :=
  if (Step.mk call (r.perform call).1).issued? = some h then .enrolled
  else
    match r.cell? h with
    | none => .idle
    | some c =>
        match call.concern? h c.slot.instrumentId with
        | none => .idle
        | some k => c.conductIn (r.metBy h call) k

/-- The same for calls made one after the other. -/
def conducts (h : Handle) : Registry ε → List (Call ε) → List Conduct
  | _, [] => []
  | r, call :: rest => r.conduct h call :: conducts h (r.perform call).2 rest

/-- A registration that lives through a call is marked by what has become of its
estimator; a new one is enabled. -/
theorem perform_conduct (wf : r.WellFormed) (allowed : call.Allowed r)
    (hp : r.perform call = (a, r')) (hc' : r'.cell? h = some c') :
    (r.conduct h call = .enrolled ∧ c'.slot.disabled = false) ∨
      ∃ c, r.cell? h = some c ∧ c.Marks (r.conduct h call) c' := by
  unfold conduct
  rw [hp]
  by_cases hissued : (Step.mk call a).issued? = some h
  · left
    rw [if_pos hissued]
    have ha : a = .ok (.handle h) := Step.issued?_eq_some_iff.mp hissued
    subst ha
    obtain ⟨alphaId, i, estimator, _, hreg⟩ := registerEstimator_of_issued hp
    obtain ⟨s, hs, hcell⟩ := cell?_registerEstimator wf hreg
    rw [hcell] at hc'
    cases hc'
    exact ⟨rfl, disabled_of_slotOf hs⟩
  · right
    rw [if_neg hissued]
    have hold : a ≠ .ok (.handle h) := fun heq => hissued (Step.issued?_eq_some_iff.mpr heq)
    obtain ⟨c, hc⟩ := cell?_before wf hp hold hc'
    refine ⟨c, hc, ?_⟩
    rw [hc]
    simp only
    cases hk : call.concern? h c.slot.instrumentId with
    | none =>
        rw [perform_unconcerned wf allowed hp hc hk hc']
        exact c.marks_idle
    | some k =>
        rw [(perform_concerned wf hp hc hk).2 c' hc']
        exact c.marks_respondIn _ k

/-! ## Runs -/

/-- The flag of a slot says how its history ends. -/
theorem disabled_iff_brokenOff (hr : Run r steps r') (wf : r.WellFormed) (history : List Conduct)
    (hstart : ∀ c, r.cell? h = some c → (c.slot.disabled = true ↔ BrokenOff history))
    (hc' : r'.cell? h = some c') :
    c'.slot.disabled = true ↔ BrokenOff (history ++ conducts h r (steps.map (·.call))) := by
  induction hr generalizing history with
  | nil =>
      rw [List.map_nil, conducts, List.append_nil]
      exact hstart c' hc'
  | @cons r r₁ r₂ call a rest allowed performed _ ih =>
      have hmid : ∀ c, r₁.cell? h = some c →
          (c.slot.disabled = true ↔ BrokenOff (history ++ [r.conduct h call])) := by
        intro c₁ hc₁
        rw [brokenOff_append_singleton]
        rcases perform_conduct wf allowed performed hc₁ with ⟨hm, hd⟩ | ⟨c, hc, hmarks⟩
        · simp [hm, hd]
        · rw [hmarks.disabled, Conduct.flag_eq_true_iff, hstart c hc]
      have hrest := ih (perform_wellFormed wf performed) _ hmid hc'
      rw [List.append_assoc] at hrest
      simpa only [List.map_cons, conducts, performed, List.singleton_append] using hrest

/-- A slot that is disabled and not reset or registered anew keeps its output. -/
theorem latest_of_shut (hr : Run r steps r') (wf : r.WellFormed)
    (hstart : ∀ c, r.cell? h = some c → c.slot.disabled = true)
    (henrolled : .enrolled ∉ conducts h r (steps.map (·.call)))
    (hrestarted : .restarted ∉ conducts h r (steps.map (·.call))) (hc' : r'.cell? h = some c') :
    ∃ c, r.cell? h = some c ∧ c'.latest = c.latest := by
  induction hr with
  | nil => exact ⟨c', hc', rfl⟩
  | @cons r r₁ r₂ call a rest allowed performed _ ih =>
      simp only [List.map_cons, conducts, performed, List.mem_cons, not_or] at henrolled hrestarted
      have hmarked : ∀ c₁, r₁.cell? h = some c₁ →
          ∃ c, r.cell? h = some c ∧ c.Marks (r.conduct h call) c₁ ∧ c₁.slot.disabled = true := by
        intro c₁ hc₁
        rcases perform_conduct wf allowed performed hc₁ with ⟨hm, _⟩ | ⟨c, hc, hmarks⟩
        · exact absurd hm.symm henrolled.1
        · refine ⟨c, hc, hmarks, ?_⟩
          rw [hmarks.disabled, Conduct.flag_eq_true_iff]
          exact .inr ⟨hstart c hc, Ne.symm henrolled.1, Ne.symm hrestarted.1⟩
      obtain ⟨c₁, hc₁, hlatest⟩ := ih (perform_wellFormed wf performed)
        (fun c₁ hc₁ => (hmarked c₁ hc₁).choose_spec.2.2) henrolled.2 hrestarted.2 hc'
      obtain ⟨c, hc, hmarks, hd⟩ := hmarked c₁ hc₁
      exact ⟨c, hc, hlatest.trans (hmarks.latest hd)⟩

/-- From a panic on, the output stays that from before the panic. -/
theorem latestOf_since_panic (hr : Run r steps r') (wf : r.WellFormed) {later : List Conduct}
    (hpanic : conducts h r (steps.map (·.call)) = .brokeOff :: later) (henrolled : .enrolled ∉ later)
    (hrestarted : .restarted ∉ later) (hc' : r'.cell? h = some c') :
    r'.latestOf h = r.latestOf h := by
  cases hr with
  | nil => cases hpanic
  | @cons _ r₁ _ call a rest allowed performed tail =>
      simp only [List.map_cons, conducts, performed, List.cons.injEq] at hpanic
      obtain ⟨hm, rfl⟩ := hpanic
      have hmarked : ∀ c₁, r₁.cell? h = some c₁ →
          ∃ c, r.cell? h = some c ∧ c.Marks .brokeOff c₁ := by
        intro c₁ hc₁
        rcases perform_conduct wf allowed performed hc₁ with ⟨hm', _⟩ | ⟨c, hc, hmarks⟩
        · rw [hm] at hm'
          cases hm'
        · exact ⟨c, hc, hm ▸ hmarks⟩
      obtain ⟨c₁, hc₁, hlatest⟩ := latest_of_shut tail (perform_wellFormed wf performed)
        (fun c₁ hc₁ => (hmarked c₁ hc₁).choose_spec.2.disabled) henrolled hrestarted hc'
      obtain ⟨c, hc, hmarks⟩ := hmarked c₁ hc₁
      rw [latestOf_of_cell hc', latestOf_of_cell hc, hlatest, hmarks.latest hmarks.disabled]

/-! ## Disabled slots -/

/-- How a disabled slot answers, its estimator being left alone. -/
structure Shut (r : Registry ε) (h : Handle) (s : Slot ε) : Prop where
  rebase : r.perform (.rebase h) = (.error (.refused s.disabledError), r)
  referenceBinning : r.perform (.referenceBinning h) = (.error (.refused s.disabledError), r)
  installReference : ∀ counts,
    r.perform (.installReference h counts) = (.error (.refused s.disabledError), r)
  update : ∀ event, event.instrumentId = s.instrumentId → s.accepts event = true →
    r.perform (.update h event) = (.error (.refused s.disabledError), r)
  /-- An event that no estimator in the slot would be given. -/
  misdirected : ∀ event, event.instrumentId ≠ s.instrumentId →
    r.perform (.update h event) =
      (.error (.refused (wrongInstrumentError event.instrumentId s.instrumentId)), r)
  unaccepted : ∀ event, event.instrumentId = s.instrumentId → s.accepts event = false →
    r.perform (.update h event) = (.error (.refused (noTradeError s)), r)

theorem shut_of_disabled (hs : r.arena.get? h = some s) (hd : s.disabled = true) :
    r.Shut h s := by
  have hcall : ∀ {β : Type} (call : ε → Except Fault β × ε),
      r.callSlot h call = (.error s.disabledError, r) := by
    intro β call
    have hstore : r.store h s = r := by rw [Registry.store, Arena.store_self hs]
    have hguarded : s.guarded call = (.error s.disabledError, s) := if_pos hd
    unfold callSlot
    rw [slot_eq_ok_iff.mpr hs]
    simp only [hguarded, hstore]
  have hrun : ∀ event, r.run h s event = ⟨.error s.disabledError, false, r⟩ :=
    fun event => if_pos hd
  have hupdate : ∀ event, r.update h event =
      if event.instrumentId ≠ s.instrumentId then
        (.error (wrongInstrumentError event.instrumentId s.instrumentId), r)
      else if !s.accepts event then (.error (noTradeError s), r)
      else (.error s.disabledError, r) := by
    intro event
    unfold Registry.update
    rw [slot_eq_ok_iff.mpr hs]
    simp only [hrun]
  constructor
  · exact congrArg (Prod.map (answer fun _ => .done) id) (hcall Estimator.rebase)
  · exact congrArg (Prod.map (answer .binning) id) (hcall Cell.binningOf)
  · exact fun counts => congrArg (Prod.map (answer fun _ => .done) id)
      (hcall (Estimator.installReference · counts))
  · intro event hi ha
    show (r.update h event).map (answer .output) id = _
    rw [hupdate, if_neg (not_not.mpr hi), if_neg (by simp [ha])]
    rfl
  · intro event hi
    show (r.update h event).map (answer .output) id = _
    rw [hupdate, if_pos hi]
    rfl
  · intro event hi ha
    show (r.update h event).map (answer .output) id = _
    rw [hupdate, if_neg (not_not.mpr hi), if_pos (by simp [ha])]
    rfl

/-- The registry with another estimator in a slot. -/
def swapped (r : Registry ε) (h : Handle) (s : Slot ε) (estimator : ε) : Registry ε :=
  r.store h { s with estimator }

/-- A disabled slot answers the same whatever estimator is in it: none is called. -/
theorem shut_swapped (hs : r.arena.get? h = some s) (hd : s.disabled = true) (estimator : ε) :
    (r.swapped h s estimator).Shut h { s with estimator } := by
  refine shut_of_disabled ?_ hd
  rw [swapped, Registry.store, Arena.get?_store, if_pos ⟨rfl, Arena.isLive_iff.mpr ⟨s, hs⟩⟩]

/-- A reset that breaks off disables the slot and keeps its output. -/
theorem perform_reset_of_panic (hc : r.cell? h = some c) {panic : Panic}
    (hreset : (Estimator.reset c.slot.estimator).1 = .error panic) :
    ∃ r' s, r.perform (.reset h) = (.error (.refused (Slot.resetPanicError panic)), r') ∧
      r'.arena.get? h = some s ∧ s.disabled = true ∧ r'.latestOf h = r.latestOf h := by
  have hperform := perform_touch_of_ne_update hc (t := .reset) fun event heq => by cases heq
  cases he : Estimator.reset c.slot.estimator with
  | mk result estimator =>
      rw [he] at hreset
      cases hreset
      have hact : c.act .reset = (.error (.refused (Slot.resetPanicError panic)),
          { c with slot := { c.slot with estimator, disabled := true } }) := by
        simp only [Cell.act, Cell.reset, Slot.reset, he]
        rfl
      rw [hact] at hperform
      have hcell := cell?_put hc { c with slot := { c.slot with estimator, disabled := true } } h
      rw [if_pos rfl] at hcell
      refine ⟨_, _, hperform, (cell?_eq_some_iff.mp hcell).1, rfl, ?_⟩
      rw [latestOf_of_cell hcell, latestOf_of_cell hc]

/-! ## Dispatch -/

/-- The turns of the dispatch of an event. -/
def turns (r : Registry ε) (event : MarketEvent) : List (Serving ε) :=
  servings event (r.slotsOn event.instrumentId) r

/-- A dispatch comes to every estimator that takes the event, in order of
registration, whatever becomes of the others. -/
structure KeepsApart (log : List Handle) (r : Registry ε) (event : MarketEvent) : Prop where
  /-- The slots on the instrument stand in order of registration. -/
  ordered : ((r.slotsOn event.instrumentId).map Prod.fst).Pairwise (RegisteredBefore log)
  /-- Every slot that takes the event has one turn, in this order. -/
  turns_eq : (r.turns event).map (fun t => (t.handle, t.slot)) =
    (r.slotsOn event.instrumentId).filter (·.2.accepts event)
  /-- The report has the failure or the output of every turn once. -/
  reported : ∀ t ∈ r.turns event,
    (r.dispatch event).report.failures.filter (·.handle == t.handle) =
        (t.failure? event).toList ∧
      (r.dispatch event).report.outputs.filter (·.alphaId == t.slot.alphaId) =
        (t.output? event).toList
  /-- A disabled slot fails. -/
  disabled : ∀ t ∈ r.turns event, t.slot.disabled = true →
    t.failure? event = some ⟨t.handle, t.slot.alphaId, t.slot.disabledError⟩
  /-- An estimator that breaks off fails. -/
  panicked : ∀ t ∈ r.turns event, t.slot.disabled = false → ∀ panic,
    (t.registry.ending t.slot.estimator event).1 = .error (.panicked panic) →
      t.failure? event = some ⟨t.handle, t.slot.alphaId, Slot.panicError panic⟩
  /-- Every other estimator has taken the event in: unless its registration has been
  removed, it is left as its update ended. -/
  fed : ∀ t ∈ r.turns event, t.slot.disabled = false → ∀ s,
    (r.dispatch event).registry.arena.get? t.handle = some s →
      s.estimator = (t.registry.ending t.slot.estimator event).2

/-- A turn of a dispatch, picked out. -/
theorem exists_turn_of_mem (wf : r.WellFormed) {t : Serving ε} (ht : t ∈ r.turns event) :
    ∃ first others, r.turns event = first ++ t :: others ∧
      (∀ u ∈ first ++ others, u.handle ≠ t.handle ∧ u.slot.alphaId ≠ t.slot.alphaId) ∧
        Spares t.handle r t.registry ∧
          Spares t.handle (t.feed event).registry (r.dispatch event).registry := by
  have hslot := mem_of_mem_servings ht
  have haccepts : t.slot.accepts event = true := by
    have hm := List.mem_map_of_mem (f := fun t : Serving ε => (t.handle, t.slot)) ht
    rw [turns, map_servings] at hm
    exact (List.mem_filter.mp hm).2
  have hnd : ((r.slotsOn event.instrumentId).map Prod.fst).Nodup := by
    rw [wf.slotsOn_handles]
    exact wf.arena.handlesOn_nodup _
  obtain ⟨first, met, others, hturns, hothers, hbefore, hafter⟩ :=
    exists_turn hnd hslot haccepts r
  have hsame : t = ⟨t.handle, t.slot, met⟩ := by
    rw [turns, hturns] at ht
    rcases List.mem_append.mp ht with hfirst | hrest
    · exact absurd rfl (hothers t (List.mem_append_left _ hfirst)).1
    · rcases List.mem_cons.mp hrest with heq | hrest
      · exact heq
      · exact absurd rfl (hothers t (List.mem_append_right _ hrest)).1
  have hmet : t.registry = met := congrArg Serving.registry hsame
  subst hmet
  refine ⟨first, others, hturns, fun u hu => ?_, hbefore, hafter⟩
  exact ⟨(hothers u hu).1, names_slotsOn wf (hothers u hu).2 hslot (hothers u hu).1⟩

theorem keepsApart_dispatch {log : List Handle} (hl : Logged log r) (event : MarketEvent) :
    KeepsApart log r event where
  ordered := by
    rw [hl.wellFormed.slotsOn_handles]
    exact hl.ordered _
  turns_eq := map_servings event _ r
  reported := by
    intro t ht
    obtain ⟨first, others, hturns, hothers, _⟩ := exists_turn_of_mem hl.wellFormed ht
    unfold Registry.dispatch
    rw [report_feedAll]
    rw [turns] at hturns
    rw [hturns]
    exact ⟨failures_of_turn fun u hu => (hothers u hu).1, outputs_of_turn fun u hu => (hothers u hu).2⟩
  disabled := by
    intro t _ hd
    have hfeed : t.feed event = ⟨.error t.slot.disabledError, false, t.registry⟩ := if_pos hd
    unfold Serving.failure?
    rw [hfeed]
  panicked := by
    intro t _ hd panic hpanic
    have hresult : (t.feed event).result = .error (Slot.panicError panic) := by
      have heq := result_run t.registry t.handle ⟨t.slot, none⟩ event
      rw [Cell.feedIn_eq, if_neg (by simp [hd])] at heq
      cases hending : t.registry.ending t.slot.estimator event with
      | mk result estimator =>
          rw [hending] at hpanic heq
          cases hpanic
          exact heq
    unfold Serving.failure?
    rw [hresult]
  fed := by
    intro t ht hd s hs
    obtain ⟨first, others, _, _, hbefore, hafter⟩ := exists_turn_of_mem hl.wellFormed ht
    have hslot := (mem_slotsOn_iff.mp (mem_of_mem_servings ht)).2
    have hsame : ∀ d, t.registry.cell? t.handle = some d → d = ⟨t.slot, r.latest[t.handle]?⟩ := by
      intro d hd'
      have hcell := hbefore d hd'
      rw [cell?_of_get? hslot] at hcell
      exact (Option.some.inj hcell).symm
    have hcell := cell?_run hsame (hafter _ (cell?_of_get? hs))
    have hestimator := congrArg (·.slot.estimator) hcell
    simp only [Cell.feedIn, @Cell.slot_feed ε t.registry.settledIn, hd, Bool.false_eq_true, if_false,
      estimator_absorb] at hestimator
    exact hestimator

/-! ## Main result -/

/-- The history of the estimator of a handle in the course of operations. -/
def historyOf (r : Registry ε) (h : Handle) (ops : List (Operation ε)) : List Conduct :=
  conducts h r (ops.flatMap Operation.calls)

theorem Course.logged {ops : List (Operation ε)} (hcourse : Course (.empty : Registry ε) ops r) :
    Logged (issued (unrolled .empty ops)) r :=
  empty_logged.run hcourse.unroll

theorem historyOf_eq (r : Registry ε) (h : Handle) (ops : List (Operation ε)) :
    r.historyOf h ops = conducts h r ((r.unrolled ops).map (·.call)) := by
  rw [historyOf, unrolled, map_call_performAll]

/-- Panics stay with the estimator that caused them.  After any course of calls and
batches on estimators of any kind:

1. a slot is disabled exactly when its estimator has broken off since it was
   registered, in a call through the slot or in a reset, and no reset has succeeded
   since it did so last;
2. a disabled slot answers every call that needs its estimator with the error of
   disabled slots, the registry staying as it is, and it does so whatever estimator is
   in it; an event that its estimator would not be given is refused as by any slot;
3. from the panic on, as long as the slot is not reset or registered anew, the last
   output is that from before the panic;
4. a reset that breaks off gives the error of such resets, leaves the slot disabled
   and keeps its output;
5. a dispatch reports one failure for every estimator that is disabled or breaks off,
   and comes to all others that take the event, in order of registration. -/
theorem panics_contained {ops : List (Operation ε)} (hcourse : Course .empty ops r) :
    (∀ h s, r.arena.get? h = some s →
      (s.disabled = true ↔ BrokenOff (historyOf .empty h ops))) ∧
    (∀ h s, r.arena.get? h = some s → s.disabled = true →
      s.disabledError.code = .internalInvariantViolation ∧ r.Shut h s ∧
        ∀ estimator, (r.swapped h s estimator).Shut h { s with estimator }) ∧
    (∀ h more r' later, Course r more r' → r.historyOf h more = .brokeOff :: later →
      .enrolled ∉ later → .restarted ∉ later → r'.arena.isLive h = true →
        r'.latestOf h = r.latestOf h) ∧
    (∀ h s panic, r.arena.get? h = some s → (Estimator.reset s.estimator).1 = .error panic →
      (Slot.resetPanicError panic).code = .internalInvariantViolation ∧
        ∃ r' s', r.perform (.reset h) = (.error (.refused (Slot.resetPanicError panic)), r') ∧
          r'.arena.get? h = some s' ∧ s'.disabled = true ∧ r'.latestOf h = r.latestOf h) ∧
    ∀ event, KeepsApart (issued (unrolled .empty ops)) r event := by
  have hl := hcourse.logged
  refine ⟨?_, ?_, ?_, ?_, fun event => keepsApart_dispatch hl event⟩
  · intro h s hs
    have hstart : ∀ c, (empty : Registry ε).cell? h = some c →
        (c.slot.disabled = true ↔ BrokenOff []) := by
      intro c hc
      simp [cell?, empty] at hc
    rw [historyOf_eq]
    exact disabled_iff_brokenOff hcourse.unroll empty_logged.wellFormed [] hstart (cell?_of_get? hs)
  · intro h s hs hd
    exact ⟨rfl, shut_of_disabled hs hd, shut_swapped hs hd⟩
  · intro h more r' later hmore hpanic henrolled hrestarted hlive
    obtain ⟨s, hs⟩ := Arena.isLive_iff.mp hlive
    rw [historyOf_eq] at hpanic
    exact latestOf_since_panic hmore.unroll hl.wellFormed hpanic henrolled hrestarted
      (cell?_of_get? hs)
  · intro h s panic hs hreset
    exact ⟨rfl, perform_reset_of_panic (cell?_of_get? hs) hreset⟩

end

/-! ### A course in which an estimator breaks off -/

/-- The estimator gives one reading and breaks off on the next event. -/
theorem course_faulty : ∃ ops r s, Course (.empty : Registry (Alpha ⊕ Scripted)) ops r ∧
    r.arena.get? ⟨0, 0⟩ = some s ∧ s.disabled = true ∧ s.key = faultySlot.key := by
  have hfirst : Performs (.empty : Registry (Alpha ⊕ Scripted))
      (.call ⟨.registerEstimator ⟨"a"⟩ ⟨"X"⟩ faultySlot.estimator, .ok (.handle ⟨0, 0⟩)⟩)
      (solo faultySlot) := .call trivial perform_faulty
  have hreading : Performs (solo faultySlot) (.call ⟨.update ⟨0, 0⟩ (quote "X" 10), _⟩) _ :=
    .call trivial rfl
  have hpanic : Performs ((solo faultySlot).perform (.update ⟨0, 0⟩ (quote "X" 10))).2
      (.call ⟨.update ⟨0, 0⟩ (quote "X" 12), _⟩) _ := .call trivial rfl
  exact ⟨_, _, _, .cons hfirst (.cons hreading (.cons hpanic (.nil _))), rfl, rfl, rfl⟩

theorem panics_contained_faulty : ∃ ops r s,
    Course (.empty : Registry (Alpha ⊕ Scripted)) ops r ∧ r.arena.get? ⟨0, 0⟩ = some s ∧
      BrokenOff (historyOf .empty ⟨0, 0⟩ ops) ∧ r.Shut ⟨0, 0⟩ s := by
  obtain ⟨ops, r, s, hcourse, hs, hd, _⟩ := course_faulty
  have hcontained := panics_contained hcourse
  exact ⟨ops, r, s, hcourse, hs, (hcontained.1 ⟨0, 0⟩ s hs).mp hd,
    (hcontained.2.1 ⟨0, 0⟩ s hs hd).2.1⟩

/-- An update on a disabled slot does not always give the error of disabled slots: an
event for another instrument is refused before the slot is looked at. -/
theorem disabled_update_misdirected :
    ¬ ∀ ops (r : Registry (Alpha ⊕ Scripted)), Course .empty ops r →
      ∀ h s, r.arena.get? h = some s → s.disabled = true → ∀ event,
        ∃ error r', r.perform (.update h event) = (.error (.refused error), r') ∧
          error.code = .internalInvariantViolation := by
  intro hall
  obtain ⟨ops, r, s, hcourse, hs, hd, hkey⟩ := course_faulty
  have hi : (quote "Y" 10).instrumentId ≠ s.instrumentId := by
    rw [show s.instrumentId = ⟨"X"⟩ from congrArg SlotKey.instrumentId hkey]
    decide
  obtain ⟨error, r', hupdate, hcode⟩ := hall ops r hcourse ⟨0, 0⟩ s hs hd (quote "Y" 10)
  rw [(shut_of_disabled hs hd).misdirected _ hi] at hupdate
  cases hupdate
  cases hcode

end Registry

end MarketSignals
