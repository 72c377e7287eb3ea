import MarketSignals.Proofs.Registry.Changes

/-!
# The registry stays consistent

In every registry that a run leads to from the empty one, the entries, the free
list, both indexes and the outputs describe the same slots, and the list of an
instrument follows the order of registration.  All lookups agree for that reason.

## Main definitions

* `RegisteredBefore` — the order of the last registrations of two handles.
* `LookupsAgree` — what the lookups say about each other.

## Main results

* `run_consistent` — all of it, for every run.
* `get?_clearInOrder` — what clearing does to the view, for any order.
-/

namespace MarketSignals.Registry

variable {ε : Type} {r r' : Registry ε} {g h : Handle}

/-! ## The order of registration -/

/-- In a log of registrations, the last one of `g` came before the last one of
`h`.  A handle may be given out again once the generations have come round. -/
def RegisteredBefore (log : List Handle) (g h : Handle) : Prop :=
  ∃ older newer, log = older ++ newer ∧ g ∈ older ∧ g ∉ newer ∧ h ∈ newer

theorem RegisteredBefore.append_singleton {log : List Handle} {k : Handle}
    (hb : RegisteredBefore log g h) (hk : g ≠ k) : RegisteredBefore (log ++ [k]) g h := by
  obtain ⟨older, newer, rfl, hg, hgn, hh⟩ := hb
  refine ⟨older, newer ++ [k], by simp, hg, ?_, by simp [hh]⟩
  simp [hgn, hk]

theorem registeredBefore_last {log : List Handle} (hg : g ∈ log) (hne : g ≠ h) :
    RegisteredBefore (log ++ [h]) g h :=
  ⟨log, [h], rfl, hg, by simp [hne], by simp⟩

/-- The registry with a log of the registrations that led to it. -/
structure Logged (log : List Handle) (r : Registry ε) : Prop where
  wellFormed : r.WellFormed
  live_mem : ∀ h s, r.arena.get? h = some s → h ∈ log
  ordered : ∀ i, (r.handlesOn i).Pairwise (RegisteredBefore log)

theorem empty_logged : Logged [] (empty : Registry ε) where
  wellFormed := ⟨Arena.empty_wellFormed, by simp [empty]⟩
  live_mem := by simp [empty]
  ordered := by simp [empty, Registry.handlesOn, Arena.empty, Arena.handlesOn_eq]

theorem Logged.changes {log : List Handle} (hl : Logged log r) (hc : Changes r r') :
    Logged log r' where
  wellFormed := hc.wellFormed hl.wellFormed
  live_mem := by
    intro h t ht
    obtain ⟨s, hs, _⟩ := hc.narrows.get? h t ht
    exact hl.live_mem h s hs
  ordered := fun i => (hl.ordered i).sublist (hc.narrows.handlesOn i)

/-- A registration goes to the end of the log and of the list of its
instrument. -/
theorem Logged.enrols {log : List Handle} (hl : Logged log r) (he : Enrols r h r') :
    Logged (log ++ [h]) r' := by
  have wf := hl.wellFormed.arena
  have hwf' := he.wellFormed hl.wellFormed
  obtain ⟨s, _, hins⟩ := he.inserted
  have hstale := wf.get?_eq_none_of_insert hins
  -- the new handle was stale, so it differs from every handle that was listed
  have hne : ∀ i, ∀ g ∈ r.handlesOn i, g ≠ h := by
    rintro i _ hg rfl
    obtain ⟨t, ht, _⟩ := (wf.mem_handlesOn_iff i _).mp hg
    rw [hstale] at ht
    cases ht
  have hlog : ∀ i, ∀ g ∈ r.handlesOn i, g ∈ log := by
    intro i g hg
    obtain ⟨t, ht, _⟩ := (wf.mem_handlesOn_iff i g).mp hg
    exact hl.live_mem g t ht
  refine ⟨hwf', ?_, fun i => ?_⟩
  · intro g t ht
    rw [wf.get?_insert hins] at ht
    rw [List.mem_append, List.mem_singleton]
    by_cases hgh : g = h
    · exact .inr hgh
    · rw [if_neg hgh] at ht
      exact .inl (hl.live_mem g t ht)
  · have hold : (r.handlesOn i).Pairwise (RegisteredBefore (log ++ [h])) := by
      apply (hl.ordered i).imp_of_mem
      intro g g' hg _ hb
      exact hb.append_singleton (hne i g hg)
    have hlist : r'.handlesOn i = if i = s.instrumentId then r.handlesOn i ++ [h]
        else r.handlesOn i := wf.handlesOn_insert hins i
    rw [hlist]
    split
    · refine List.pairwise_append.mpr ⟨hold, List.pairwise_singleton _ _, ?_⟩
      intro g hg k hk
      rw [List.mem_singleton.mp hk]
      exact registeredBefore_last (hlog i g hg) (hne i g hg)
    · exact hold

theorem Logged.perform [AlphaHost ε] {log : List Handle} {c : Call ε} {a : Answer}
    (hl : Logged log r) (hp : r.perform c = (a, r')) :
    Logged (log ++ (Step.mk c a).issued?.toList) r' := by
  rcases perform_cases hp with ⟨h, rfl, he⟩ | ⟨hnone, hc⟩
  · exact hl.enrols he
  · rw [hnone, Option.toList_none, List.append_nil]
    exact hl.changes hc

theorem Logged.run [AlphaHost ε] {log : List Handle} {steps : List (Step ε)} (hl : Logged log r)
    (hr : Run r steps r') : Logged (log ++ issued steps) r' := by
  induction hr generalizing log with
  | nil => simpa [issued] using hl
  | @cons _ _ _ c a rest _ performed _ ih =>
      have hrest := ih (hl.perform performed)
      have hissued : issued (⟨c, a⟩ :: rest) = (Step.mk c a).issued?.toList ++ issued rest := by
        simp only [issued, List.filterMap_cons]
        cases (Step.mk c a).issued? <;> rfl
      rwa [hissued, ← List.append_assoc]

/-! ## Lookups -/

theorem describe_eq_ok_iff {info : SlotInfo} :
    r.describe h = .ok info ↔ ∃ s, r.arena.get? h = some s ∧ s.info h = info := by
  unfold describe Registry.slot
  cases r.arena.get? h <;> simp [Except.map]

theorem lookup_eq_ok_iff {alphaId : AlphaId} {instrumentId : InstrumentId} :
    r.lookup alphaId instrumentId = .ok h ↔ r.arena.byKey[(⟨alphaId, instrumentId⟩ : SlotKey)]? =
      some h := by
  unfold lookup
  cases r.arena.byKey[(⟨alphaId, instrumentId⟩ : SlotKey)]? <;> simp

/-- What the lookups of a registry say about each other. -/
structure LookupsAgree (r : Registry ε) : Prop where
  /-- A pair of names is looked up exactly where it is described. -/
  lookup_iff : ∀ alphaId instrumentId h, r.lookup alphaId instrumentId = .ok h ↔
    ∃ info, r.describe h = .ok info ∧ info.alphaId = alphaId ∧ info.instrumentId = instrumentId
  /-- The handles on an instrument are those described there. -/
  mem_handlesOn_iff : ∀ i h, h ∈ r.handlesOn i ↔
    ∃ info, r.describe h = .ok info ∧ info.instrumentId = i
  /-- No handle on an instrument is left out of its slots. -/
  slotsOn_handles : ∀ i, (r.slotsOn i).map Prod.fst = r.handlesOn i
  /-- The descriptions on an instrument are those of its handles. -/
  infosOn_eq : ∀ i, (r.infosOn i).map .ok = (r.handlesOn i).map r.describe
  /-- The size counts the handles that are described. -/
  size_eq : ∃ handles : List Handle, handles.Nodup ∧
    (∀ h, h ∈ handles ↔ ∃ info, r.describe h = .ok info) ∧ r.size = handles.length
  /-- The last output can be asked for exactly where there is a description. -/
  latestOf_iff : ∀ h, (∃ o, r.latestOf h = .ok o) ↔ ∃ info, r.describe h = .ok info
  /-- There is no output but that of a slot. -/
  latest_described : ∀ h, h ∈ r.latest → ∃ info, r.describe h = .ok info

theorem WellFormed.slotsOn_handles (wf : r.WellFormed) (i : InstrumentId) :
    (r.slotsOn i).map Prod.fst = r.handlesOn i := by
  simp only [Registry.slotsOn, Arena.slotsOn, Registry.handlesOn, List.map_filterMap]
  have hsome : ∀ h ∈ r.arena.handlesOn i,
      ((r.arena.get? h).map (h, ·)).map Prod.fst = some h := by
    intro h hh
    obtain ⟨s, hs, _⟩ := (wf.arena.mem_handlesOn_iff i h).mp hh
    simp [hs]
  rw [List.filterMap_congr hsome, List.filterMap_some]

theorem WellFormed.infosOn_eq (wf : r.WellFormed) (i : InstrumentId) :
    (r.infosOn i).map .ok = (r.handlesOn i).map r.describe := by
  rw [← wf.slotsOn_handles, infosOn, List.map_map, List.map_map]
  apply List.map_congr_left
  rintro ⟨h, s⟩ hm
  exact (describe_eq_ok_iff.mpr ⟨s, (mem_slotsOn_iff.mp hm).2, rfl⟩).symm

theorem WellFormed.lookupsAgree (wf : r.WellFormed) : r.LookupsAgree where
  lookup_iff := by
    intro alphaId instrumentId h
    rw [lookup_eq_ok_iff, wf.arena.byKey_iff]
    simp only [describe_eq_ok_iff, Slot.key, SlotKey.mk.injEq]
    constructor
    · rintro ⟨s, hs, rfl, rfl⟩
      exact ⟨s.info h, ⟨s, hs, rfl⟩, rfl, rfl⟩
    · rintro ⟨_, ⟨s, hs, rfl⟩, rfl, rfl⟩
      exact ⟨s, hs, rfl, rfl⟩
  mem_handlesOn_iff := by
    intro i h
    simp only [describe_eq_ok_iff]
    refine (wf.arena.mem_handlesOn_iff i h).trans ?_
    constructor
    · rintro ⟨s, hs, rfl⟩
      exact ⟨s.info h, ⟨s, hs, rfl⟩, rfl⟩
    · rintro ⟨_, ⟨s, hs, rfl⟩, rfl⟩
      exact ⟨s, hs, rfl⟩
  slotsOn_handles := wf.slotsOn_handles
  infosOn_eq := wf.infosOn_eq
  size_eq := by
    refine ⟨r.arena.liveHandles, wf.arena.liveHandles_nodup, fun h => ?_, wf.arena.size_eq⟩
    simp [describe_eq_ok_iff, wf.arena.mem_liveHandles_iff]
  latestOf_iff := by
    intro h
    unfold latestOf describe
    cases r.slot h <;> simp [Except.map]
  latest_described := by
    intro h hh
    obtain ⟨s, hs⟩ := Arena.isLive_iff.mp (wf.latest_live h hh)
    exact ⟨s.info h, describe_eq_ok_iff.mpr ⟨s, hs, rfl⟩⟩

/-! ## Clearing -/

/-- The names of all slots may be listed in the order of the entries, so there is
an order to clear them in. -/
theorem WellFormed.visits_liveHandles (wf : r.WellFormed) :
    r.arena.Visits r.arena.liveHandles := by
  refine ⟨r.arena.roll.map Prod.fst, wf.arena.roll_keys_nodup, wf.arena.mem_roll_keys_iff, ?_⟩
  rw [← Arena.map_snd_roll, List.filterMap_map, ← List.filterMap_eq_map]
  apply List.filterMap_congr
  rintro ⟨k, h⟩ hm
  have hk := (wf.arena.byKey_iff k h).mpr (wf.arena.mem_roll_iff.mp hm)
  simp [hk]

/-- Clearing takes the visited handles away and no other. -/
theorem get?_clearInOrder (r : Registry ε) (order : List Handle) (g : Handle) :
    (r.clearInOrder order).arena.get? g = if g ∈ order then none else r.arena.get? g := by
  simp only [clearInOrder]
  generalize r.arena = a
  induction order generalizing a with
  | nil => simp
  | cons h rest ih =>
      rw [List.foldl_cons, ih]
      cases hr : a.remove? h with
      | none =>
          have hnone : a.get? h = none := by simpa [Arena.remove?] using hr
          by_cases hgh : g = h
          · subst hgh
            simp [hnone]
          · simp [hgh]
      | some p =>
          have hview := Arena.get?_remove? (s := p.1) (b := p.2) hr g
          simp only [Option.map_some, Option.getD_some, hview]
          by_cases hgh : g = h
          · simp [hgh]
          · simp [hgh]

/-- Clearing leaves no slot, in whatever order the names are visited. -/
theorem WellFormed.clearInOrder_empties (wf : r.WellFormed) {order : List Handle}
    (hv : r.arena.Visits order) (h : Handle) : (r.clearInOrder order).arena.get? h = none := by
  obtain ⟨keys, _, hkeys, rfl⟩ := hv
  rw [get?_clearInOrder]
  split
  · rfl
  · next hout =>
      cases hg : r.arena.get? h with
      | none => rfl
      | some s =>
          have hk := (wf.arena.byKey_iff s.key h).mpr ⟨s, hg, rfl⟩
          have hmem : s.key ∈ keys := by
            rw [hkeys, Std.ExtHashMap.mem_iff_isSome_getElem?, hk]
            rfl
          exact absurd (List.mem_filterMap.mpr ⟨s.key, hmem, hk⟩) hout

/-! ## Runs -/

/-- Every run from the empty registry leads to a registry whose entries, free
list, indexes and outputs agree, whose handles stand in order of registration,
whose lookups agree, and which clearing empties in any order. -/
theorem run_consistent [AlphaHost ε] {steps : List (Step ε)} (hr : Run .empty steps r) :
    r.WellFormed ∧ (∀ i, (r.handlesOn i).Pairwise (RegisteredBefore (issued steps))) ∧
      r.LookupsAgree ∧
      ∀ order, r.arena.Visits order → ∀ h, (r.clearInOrder order).arena.get? h = none := by
  have hl : Logged (issued steps) r := empty_logged.run hr
  exact ⟨hl.wellFormed, hl.ordered, hl.wellFormed.lookupsAgree,
    fun _ hv => hl.wellFormed.clearInOrder_empties hv⟩

/-- Calls that use an entry again, with handles that were never given out among
them. -/
def reuseCalls : List (Call Alpha) :=
  [.register ⟨"a"⟩ ⟨"X"⟩ (.ofi { marketCap := 1 }), .register ⟨"b"⟩ ⟨"X"⟩ (.ofi { marketCap := 2 }),
    .deregister ⟨0, 0⟩, .register ⟨"c"⟩ ⟨"X"⟩ (.ofi { marketCap := 3 }), .reset (.ofRaw 4294967297),
    .installReference ⟨7, 9⟩ [1, 2]]

theorem run_consistent_reuse :
    let made := (empty : Registry Alpha).performAll reuseCalls
    made.2.WellFormed ∧ (∀ i, (made.2.handlesOn i).Pairwise (RegisteredBefore (issued made.1))) ∧
      made.2.LookupsAgree ∧
      ∀ order, made.2.arena.Visits order → ∀ h,
        (made.2.clearInOrder order).arena.get? h = none :=
  run_consistent (run_performAll _ (by simp [reuseCalls]))

end MarketSignals.Registry
