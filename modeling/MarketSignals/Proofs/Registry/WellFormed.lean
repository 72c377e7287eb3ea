import Mathlib.Data.List.Nodup
import MarketSignals.Proofs.Registry.Lookup

/-!
# Well-formed arenas

An arena keeps the same slots in four places: the entries hold them, the free
list names the entries that hold none, and two indexes give their handles by
name and by instrument.  `WellFormed` says that the four agree.

## Main results

* `WellFormed.store`, `WellFormed.remove?`, `WellFormed.insert` — the three
  operations of the registry keep an arena well formed.
* `WellFormed.get?_insert`, `WellFormed.handlesOn_insert` — what a registration
  does to the view.
* `WellFormed.size_eq` — the size counts the handles that reach a slot.
-/

namespace MarketSignals.Arena

variable {ε : Type} {a b : Arena ε} {g h : Handle} {s t : Slot ε}

/-- Entry `n` exists and holds no slot. -/
def Vacant (a : Arena ε) (n : Nat) : Prop := ∃ e, a.entries[n]? = some e ∧ e.slot = none

/-- Entries, free list and indexes describe the same slots. -/
structure WellFormed (a : Arena ε) : Prop where
  size_le : a.entries.size ≤ capacity
  free_nodup : a.free.Nodup
  /-- The free list holds exactly the entries without a slot. -/
  mem_free_iff : ∀ n, (∃ i ∈ a.free, i.toNat = n) ↔ a.Vacant n
  /-- The index of names inverts the naming of slots. -/
  byKey_iff : ∀ k h, a.byKey[k]? = some h ↔ ∃ s, a.get? h = some s ∧ s.key = k
  /-- The list of an instrument holds exactly the handles of its slots. -/
  mem_handlesOn_iff : ∀ i h, h ∈ a.handlesOn i ↔ ∃ s, a.get? h = some s ∧ s.instrumentId = i
  handlesOn_nodup : ∀ i, (a.handlesOn i).Nodup
  noEmptyList : a.NoEmptyList

theorem empty_wellFormed : (empty : Arena ε).WellFormed where
  size_le := by simp [empty]
  free_nodup := by simp [empty]
  mem_free_iff := by simp [empty, Vacant]
  byKey_iff := by simp [empty, get?, entry?]
  mem_handlesOn_iff := by simp [handlesOn_eq, empty, get?, entry?]
  handlesOn_nodup := by simp [handlesOn_eq, empty]
  noEmptyList := by simp [NoEmptyList, empty]

/-- Two handles under one pair of names are the same handle. -/
theorem WellFormed.eq_of_key_eq (wf : a.WellFormed) (hg : a.get? g = some s)
    (hh : a.get? h = some t) (hk : s.key = t.key) : g = h := by
  have hgk := (wf.byKey_iff t.key g).mpr ⟨s, hg, hk⟩
  have hhk := (wf.byKey_iff t.key h).mpr ⟨t, hh, rfl⟩
  rw [hgk] at hhk
  exact Option.some.inj hhk

/-! ### Replacing a slot -/

/-- Occupying an entry that holds a slot leaves the vacancies alone. -/
theorem vacant_store (a : Arena ε) (h : Handle) (s : Slot ε) (n : Nat) :
    (a.store h s).Vacant n ↔ a.Vacant n := by
  by_cases hl : a.isLive h = true
  · obtain ⟨t, ht⟩ := isLive_iff.mp hl
    obtain ⟨e, he, _, hslot⟩ := get?_eq_some_iff.mp ht
    simp only [Vacant, store, hl, if_true, occupy, Array.getElem?_modify]
    by_cases hn : h.index.toNat = n
    · subst hn
      simp [he, hslot]
    · simp [hn]
  · simp [store, hl]

/-- A slot may be replaced by one under the same names. -/
theorem WellFormed.store (wf : a.WellFormed) (hk : ∀ t, a.get? h = some t → s.key = t.key) :
    (a.store h s).WellFormed := by
  -- the view changes at `h` only, and there the names stay
  have hview : ∀ (p : SlotKey → Prop) (g : Handle),
      (∃ t, (a.store h s).get? g = some t ∧ p t.key) ↔ ∃ t, a.get? g = some t ∧ p t.key := by
    intro p g
    rw [get?_store]
    split
    · next hc =>
        obtain ⟨rfl, hl⟩ := hc
        obtain ⟨t, ht⟩ := isLive_iff.mp hl
        simp [ht, hk t ht]
    · rfl
  exact
    { size_le := by
        simp only [Arena.store]
        split
        · simpa [occupy] using wf.size_le
        · exact wf.size_le
      free_nodup := by simpa using wf.free_nodup
      mem_free_iff := by
        intro n
        rw [free_store, vacant_store]
        exact wf.mem_free_iff n
      byKey_iff := by
        intro k g
        rw [byKey_store, hview (· = k)]
        exact wf.byKey_iff k g
      mem_handlesOn_iff := by
        intro i g
        rw [handlesOn, byInstrument_store, ← handlesOn]
        exact (wf.mem_handlesOn_iff i g).trans (hview (·.instrumentId = i) g).symm
      handlesOn_nodup := by
        intro i
        rw [handlesOn, byInstrument_store, ← handlesOn]
        exact wf.handlesOn_nodup i
      noEmptyList := by
        intro i
        rw [byInstrument_store]
        exact wf.noEmptyList i }

/-! ### Removal -/

theorem vacant_vacate (ht : a.get? h = some t) (n : Nat) :
    (a.vacate h.index).Vacant n ↔ n = h.index.toNat ∨ a.Vacant n := by
  obtain ⟨e, he, _, hslot⟩ := get?_eq_some_iff.mp ht
  simp only [Vacant, vacate, Array.getElem?_modify]
  by_cases hn : h.index.toNat = n
  · subst hn
    simp [he]
  · simp [hn, Ne.symm hn]

/-- The entry of a live handle is not free. -/
theorem WellFormed.index_notMem_free (wf : a.WellFormed) (ht : a.get? h = some t) :
    h.index ∉ a.free := by
  intro hm
  obtain ⟨e, he, hnone⟩ := (wf.mem_free_iff _).mp ⟨h.index, hm, rfl⟩
  obtain ⟨e', he', _, hsome⟩ := get?_eq_some_iff.mp ht
  rw [he] at he'
  cases he'
  rw [hnone] at hsome
  cases hsome

theorem WellFormed.remove? (wf : a.WellFormed) (hr : a.remove? h = some (s, b)) :
    b.WellFormed := by
  have hview := get?_remove? hr
  obtain ⟨hs, rfl⟩ := remove?_eq_some_iff.mp hr
  exact
    { size_le := by simpa [unlink, vacate] using wf.size_le
      free_nodup := by
        simp only [unlink, vacate, List.nodup_cons]
        exact ⟨wf.index_notMem_free hs, wf.free_nodup⟩
      mem_free_iff := by
        intro n
        have hv : ((a.vacate h.index).unlink h s.key).Vacant n ↔ n = h.index.toNat ∨ a.Vacant n :=
          vacant_vacate hs n
        have hf : ((a.vacate h.index).unlink h s.key).free = h.index :: a.free := rfl
        rw [hv, hf, ← wf.mem_free_iff n]
        simp only [List.mem_cons, exists_eq_or_imp, eq_comm (a := n)]
      byKey_iff := by
        intro k g
        rw [hview]
        simp only [unlink, vacate, Std.ExtHashMap.getElem?_erase, beq_iff_eq]
        by_cases hgh : g = h
        · subst hgh
          by_cases hk : s.key = k
          · simp [hk]
          · simp only [if_neg hk, if_true, wf.byKey_iff, hs]
            simp [hk]
        · by_cases hk : s.key = k
          · subst hk
            simp only [if_true, if_neg hgh]
            constructor
            · intro h0
              cases h0
            · rintro ⟨t, ht, hkey⟩
              exact absurd (wf.eq_of_key_eq ht hs hkey) hgh
          · simp only [if_neg hk, if_neg hgh, wf.byKey_iff]
      mem_handlesOn_iff := by
        intro i g
        rw [handlesOn_unlink, hview]
        have hold : (a.vacate h.index).handlesOn i = a.handlesOn i := rfl
        rw [hold]
        by_cases hgh : g = h
        · subst hgh
          split
          · simp
          · next hi =>
              simp only [if_true, wf.mem_handlesOn_iff, hs]
              simpa [Slot.key, eq_comm] using hi
        · rw [if_neg hgh, ← wf.mem_handlesOn_iff i g]
          split <;> simp [hgh]
      handlesOn_nodup := by
        intro i
        rw [handlesOn_unlink]
        split
        · exact (wf.handlesOn_nodup i).filter _
        · exact wf.handlesOn_nodup i
      noEmptyList := NoEmptyList.unlink (a := a.vacate h.index) wf.noEmptyList h s.key }

/-! ### Insertion -/

/-- What an allocation leaves: entry `i` is vacant, off the free list, and known
to no index. -/
structure Allocated (a b : Arena ε) (i : UInt32) : Prop where
  vacant : b.Vacant i.toNat
  get?_eq : ∀ h, b.get? h = a.get? h
  byKey_eq : b.byKey = a.byKey
  byInstrument_eq : b.byInstrument = a.byInstrument
  size_le : b.entries.size ≤ capacity
  free_nodup : b.free.Nodup
  mem_free_iff : ∀ n, (∃ j ∈ b.free, j.toNat = n) ↔ b.Vacant n ∧ n ≠ i.toNat

/-- An entry that holds no slot is reached by no handle. -/
theorem get?_eq_none_of_vacant (hv : a.Vacant h.index.toNat) : a.get? h = none := by
  obtain ⟨e, he, hnone⟩ := hv
  cases hg : a.get? h with
  | none => rfl
  | some t =>
      obtain ⟨e', he', _, hsome⟩ := get?_eq_some_iff.mp hg
      rw [he] at he'
      cases he'
      rw [hnone] at hsome
      cases hsome

/-- A new entry at the end holds no slot, so the view does not see it. -/
theorem get?_push (a : Arena ε) (free : List UInt32) (h : Handle) :
    ({ a with entries := a.entries.push ⟨0, none⟩, free } : Arena ε).get? h = a.get? h := by
  by_cases hn : h.index.toNat = a.entries.size
  · have hleft : ({ a with entries := a.entries.push ⟨0, none⟩, free } : Arena ε).get? h = none :=
      get?_eq_none_of_vacant ⟨⟨0, none⟩, by simp [hn], rfl⟩
    have hright : a.entries[h.index.toNat]? = none := by simp [hn]
    rw [hleft]
    simp [get?, entry?, hright]
  · simp only [get?, entry?, Array.getElem?_push, if_neg hn]

/-- The entry in front of the free list is taken. -/
theorem WellFormed.allocated_free (wf : a.WellFormed) {i : UInt32} {free : List UInt32}
    (hfree : a.free = i :: free) : Allocated a { a with free } i := by
  have hv : a.Vacant i.toNat := (wf.mem_free_iff _).mp ⟨i, by simp [hfree], rfl⟩
  have hnd : i ∉ free ∧ free.Nodup := by
    simpa [hfree] using wf.free_nodup
  exact
    { vacant := hv
      get?_eq := fun _ => rfl
      byKey_eq := rfl
      byInstrument_eq := rfl
      size_le := wf.size_le
      free_nodup := hnd.2
      mem_free_iff := by
        intro n
        have hiff : (∃ j ∈ i :: free, j.toNat = n) ↔ a.Vacant n := hfree ▸ wf.mem_free_iff n
        change _ ↔ a.Vacant n ∧ n ≠ i.toNat
        rw [← hiff]
        constructor
        · rintro ⟨j, hj, rfl⟩
          refine ⟨⟨j, List.mem_cons_of_mem _ hj, rfl⟩, ?_⟩
          intro heq
          exact hnd.1 (UInt32.toNat_inj.mp heq ▸ hj)
        · rintro ⟨⟨j, hj, rfl⟩, hne⟩
          rcases List.mem_cons.mp hj with rfl | hj
          · exact absurd rfl hne
          · exact ⟨j, hj, rfl⟩ }

/-- When no entry is free, a new one at the end is taken. -/
theorem WellFormed.allocated_push (wf : a.WellFormed) (hfree : a.free = [])
    (hlt : a.entries.size < capacity) :
    Allocated a { a with entries := a.entries.push ⟨0, none⟩ }
      (UInt32.ofNat a.entries.size) := by
  have hi : (UInt32.ofNat a.entries.size).toNat = a.entries.size :=
    UInt32.toNat_ofNat_of_lt' hlt
  have hfull : ∀ n, ¬ a.Vacant n := by
    intro n hn
    obtain ⟨j, hj, _⟩ := (wf.mem_free_iff n).mpr hn
    rw [hfree] at hj
    cases hj
  exact
    { vacant := ⟨⟨0, none⟩, by rw [hi]; simp, rfl⟩
      get?_eq := get?_push a a.free
      byKey_eq := rfl
      byInstrument_eq := rfl
      size_le := by
        rw [Array.size_push]
        exact hlt
      free_nodup := wf.free_nodup
      mem_free_iff := by
        intro n
        constructor
        · rintro ⟨j, hj, _⟩
          rw [show a.free = [] from hfree] at hj
          cases hj
        · rintro ⟨⟨e, he, hnone⟩, hne⟩
          rw [hi] at hne
          rw [Array.getElem?_push, if_neg hne] at he
          exact absurd ⟨e, he, hnone⟩ (hfull n) }

theorem WellFormed.allocate (wf : a.WellFormed) {i : UInt32} (ha : a.allocate = .ok (i, b)) :
    Allocated a b i := by
  unfold Arena.allocate at ha
  split at ha
  · next j free hfree =>
      cases ha
      exact wf.allocated_free hfree
  · next hfree =>
      split at ha
      · next hlt =>
          cases ha
          exact wf.allocated_push hfree hlt
      · cases ha

/-- Occupying an entry ends its vacancy. -/
theorem vacant_occupy (a : Arena ε) (i : UInt32) (s : Slot ε) (n : Nat) :
    (a.occupy i s).Vacant n ↔ a.Vacant n ∧ n ≠ i.toNat := by
  simp only [Vacant, occupy, Array.getElem?_modify]
  by_cases hn : i.toNat = n
  · subst hn
    simp
  · simp [hn, Ne.symm hn]

/-- Insertion allocates an entry, occupies it and links the handle with the
generation of the entry. -/
theorem WellFormed.insert_steps (wf : a.WellFormed) (hins : a.insert s = .ok (h, b)) :
    ∃ mid, Allocated a mid h.index ∧
      (∃ e, mid.entries[h.index.toNat]? = some e ∧ e.generation = h.generation) ∧
      b = (mid.occupy h.index s).link h s.key := by
  unfold Arena.insert at hins
  cases ha : a.allocate with
  | error error =>
      rw [ha] at hins
      cases hins
  | ok p =>
      obtain ⟨i, mid⟩ := p
      rw [ha] at hins
      cases hins
      have hmid := wf.allocate ha
      obtain ⟨e, he, _⟩ := hmid.vacant
      refine ⟨mid, hmid, ⟨e, he, ?_⟩, rfl⟩
      simp [he]

/-- The handle of a new slot was stale before. -/
theorem WellFormed.get?_eq_none_of_insert (wf : a.WellFormed) (hins : a.insert s = .ok (h, b)) :
    a.get? h = none := by
  obtain ⟨mid, hmid, _, _⟩ := wf.insert_steps hins
  rw [← hmid.get?_eq]
  exact get?_eq_none_of_vacant hmid.vacant

/-- A new slot is reached by its own handle; the others reach what they did. -/
theorem WellFormed.get?_insert (wf : a.WellFormed) (hins : a.insert s = .ok (h, b)) (g : Handle) :
    b.get? g = if g = h then some s else a.get? g := by
  obtain ⟨mid, hmid, ⟨e, he, hgen⟩, rfl⟩ := wf.insert_steps hins
  rw [get?_link, get?_occupy_index he hgen, hmid.get?_eq]

theorem WellFormed.handlesOn_insert (wf : a.WellFormed) (hins : a.insert s = .ok (h, b))
    (i : InstrumentId) :
    b.handlesOn i = if i = s.instrumentId then a.handlesOn i ++ [h] else a.handlesOn i := by
  obtain ⟨mid, hmid, _, rfl⟩ := wf.insert_steps hins
  rw [handlesOn_link]
  simp only [handlesOn, occupy, hmid.byInstrument_eq]
  rfl

/-- A slot may be inserted under names that are not taken. -/
theorem WellFormed.insert (wf : a.WellFormed) (hnew : a.byKey[s.key]? = none)
    (hins : a.insert s = .ok (h, b)) : b.WellFormed := by
  have hview := wf.get?_insert hins
  have hlist := wf.handlesOn_insert hins
  have hstale := wf.get?_eq_none_of_insert hins
  obtain ⟨mid, hmid, _, rfl⟩ := wf.insert_steps hins
  exact
    { size_le := by simpa [link, occupy] using hmid.size_le
      free_nodup := hmid.free_nodup
      mem_free_iff := by
        intro n
        exact (hmid.mem_free_iff n).trans (vacant_occupy mid h.index s n).symm
      byKey_iff := by
        intro k g
        rw [hview]
        simp only [link, occupy, hmid.byKey_eq, Std.ExtHashMap.getElem?_insert, beq_iff_eq]
        by_cases hk : s.key = k
        · subst hk
          simp only [if_true, Option.some.injEq]
          constructor
          · rintro rfl
            exact ⟨s, by simp, rfl⟩
          · rintro ⟨t, ht, hkey⟩
            by_cases hgh : g = h
            · exact hgh.symm
            · rw [if_neg hgh] at ht
              have hold := (wf.byKey_iff s.key g).mpr ⟨t, ht, hkey⟩
              rw [hnew] at hold
              cases hold
        · rw [if_neg hk, wf.byKey_iff]
          by_cases hgh : g = h
          · subst hgh
            simp [hstale, hk]
          · rw [if_neg hgh]
      mem_handlesOn_iff := by
        intro i g
        rw [hlist, hview]
        by_cases hi : i = s.instrumentId
        · subst hi
          by_cases hgh : g = h
          · simp [hgh]
          · simp [hgh, wf.mem_handlesOn_iff]
        · rw [if_neg hi, wf.mem_handlesOn_iff]
          by_cases hgh : g = h
          · subst hgh
            simp [hstale, Ne.symm hi]
          · rw [if_neg hgh]
      handlesOn_nodup := by
        intro i
        rw [hlist]
        split
        · refine List.nodup_append.mpr ⟨wf.handlesOn_nodup i, by simp, ?_⟩
          rintro g hg _ hh rfl
          rw [List.mem_singleton.mp hh, wf.mem_handlesOn_iff, hstale] at hg
          obtain ⟨_, ht, _⟩ := hg
          cases ht
        · exact wf.handlesOn_nodup i
      noEmptyList := by
        refine NoEmptyList.link (a := mid.occupy h.index s) ?_ h s.key
        intro i
        simp only [occupy, hmid.byInstrument_eq]
        exact wf.noEmptyList i }

/-! ## Counting -/

/-- The size of a map is the number of its keys. -/
theorem size_eq_length_of_mem_iff {α β : Type} [DecidableEq α] [Hashable α]
    {m : Std.ExtHashMap α β} {keys : List α} (hnd : keys.Nodup) (hmem : ∀ k, k ∈ keys ↔ k ∈ m) :
    m.size = keys.length := by
  induction keys generalizing m with
  | nil =>
      have hm : m = ∅ := by
        ext k
        have hk : k ∉ m := fun h => by simpa using (hmem k).mpr h
        simp [Std.ExtHashMap.getElem?_eq_none hk]
      simp [hm]
  | cons k keys ih =>
      obtain ⟨hk, hnd⟩ := List.nodup_cons.mp hnd
      have hkm : k ∈ m := (hmem k).mp (by simp)
      have hrest : (m.erase k).size = keys.length := by
        apply ih hnd
        intro j
        rw [Std.ExtHashMap.mem_erase, ← hmem j, List.mem_cons]
        by_cases hj : j = k
        · subst hj
          simp [hk]
        · simp [hj, Ne.symm hj]
      have hpos : m.size ≠ 0 := by
        intro h0
        rw [Std.ExtHashMap.eq_empty_iff_size_eq_zero.mpr h0] at hkm
        simp at hkm
      rw [Std.ExtHashMap.size_erase, if_pos hkm] at hrest
      simp only [List.length_cons]
      omega

/-- Names and handle of every slot, in order of the entries. -/
def roll (a : Arena ε) : List (SlotKey × Handle) :=
  a.entries.toList.zipIdx.filterMap fun (e, index) =>
    e.slot.map fun s => (s.key, ⟨UInt32.ofNat index, e.generation⟩)

theorem map_snd_roll (a : Arena ε) : a.roll.map Prod.snd = a.liveHandles := by
  simp [roll, liveHandles, List.map_filterMap, Function.comp_def]

theorem WellFormed.index_lt (wf : a.WellFormed) {n : Nat} {e : Entry ε}
    (he : a.entries[n]? = some e) : n < UInt32.size := by
  have hn : n < a.entries.size := (Array.getElem?_eq_some_iff.mp he).1
  exact Nat.lt_of_lt_of_le hn wf.size_le

theorem WellFormed.mem_roll_iff (wf : a.WellFormed) {k : SlotKey} :
    (k, h) ∈ a.roll ↔ ∃ s, a.get? h = some s ∧ s.key = k := by
  simp only [roll, List.mem_filterMap, List.mem_zipIdx_iff_getElem?, Array.getElem?_toList,
    Option.map_eq_some_iff, Prod.mk.injEq]
  constructor
  · rintro ⟨⟨e, n⟩, he, s, hs, hk, rfl⟩
    have hn : (UInt32.ofNat n).toNat = n := UInt32.toNat_ofNat_of_lt' (wf.index_lt he)
    exact ⟨s, get?_eq_some_iff.mpr ⟨e, by simpa [hn] using he, rfl, hs⟩, hk⟩
  · rintro ⟨s, hs, hk⟩
    obtain ⟨e, he, hgen, hslot⟩ := get?_eq_some_iff.mp hs
    exact ⟨(e, h.index.toNat), he, s, hslot, hk, by cases h; simp_all⟩

theorem WellFormed.roll_nodup (wf : a.WellFormed) : a.roll.Nodup := by
  unfold roll
  rw [List.Nodup, List.pairwise_filterMap, List.pairwise_iff_getElem]
  intro i j hi hj hij p hp q hq hpq
  subst hpq
  simp only [List.getElem_zipIdx, Nat.zero_add, Option.map_eq_some_iff] at hp hq
  obtain ⟨_, _, hp⟩ := hp
  obtain ⟨_, _, hq⟩ := hq
  simp only [List.length_zipIdx, Array.length_toList] at hi hj
  have hi32 : i < UInt32.size := Nat.lt_of_lt_of_le hi wf.size_le
  have hj32 : j < UInt32.size := Nat.lt_of_lt_of_le hj wf.size_le
  have hindex : UInt32.ofNat i = UInt32.ofNat j := by
    have h := hp.trans hq.symm
    simp only [Prod.mk.injEq, Handle.mk.injEq] at h
    exact h.2.1
  have hnat := congrArg UInt32.toNat hindex
  rw [UInt32.toNat_ofNat_of_lt' hi32, UInt32.toNat_ofNat_of_lt' hj32] at hnat
  omega

theorem WellFormed.mem_liveHandles_iff (wf : a.WellFormed) :
    h ∈ a.liveHandles ↔ ∃ s, a.get? h = some s := by
  rw [← map_snd_roll, List.mem_map]
  constructor
  · rintro ⟨⟨k, g⟩, hm, rfl⟩
    obtain ⟨s, hs, _⟩ := wf.mem_roll_iff.mp hm
    exact ⟨s, hs⟩
  · rintro ⟨s, hs⟩
    exact ⟨(s.key, h), wf.mem_roll_iff.mpr ⟨s, hs, rfl⟩, rfl⟩

theorem WellFormed.liveHandles_nodup (wf : a.WellFormed) : a.liveHandles.Nodup := by
  rw [← map_snd_roll]
  apply wf.roll_nodup.map_on
  rintro ⟨k, g⟩ hp ⟨k', g'⟩ hq rfl
  obtain ⟨s, hs, rfl⟩ := wf.mem_roll_iff.mp hp
  obtain ⟨t, ht, rfl⟩ := wf.mem_roll_iff.mp hq
  rw [hs] at ht
  cases ht
  rfl

theorem WellFormed.mem_roll_keys_iff (wf : a.WellFormed) (k : SlotKey) :
    k ∈ a.roll.map Prod.fst ↔ k ∈ a.byKey := by
  rw [Std.ExtHashMap.mem_iff_isSome_getElem?, Option.isSome_iff_exists, List.mem_map]
  constructor
  · rintro ⟨⟨_, h⟩, hm, rfl⟩
    exact ⟨h, (wf.byKey_iff _ h).mpr (wf.mem_roll_iff.mp hm)⟩
  · rintro ⟨h, hk⟩
    exact ⟨(k, h), wf.mem_roll_iff.mpr ((wf.byKey_iff k h).mp hk), rfl⟩

theorem WellFormed.roll_keys_nodup (wf : a.WellFormed) : (a.roll.map Prod.fst).Nodup := by
  apply wf.roll_nodup.map_on
  rintro ⟨k, g⟩ hp ⟨k', g'⟩ hq rfl
  obtain ⟨s, hs, hsk⟩ := wf.mem_roll_iff.mp hp
  obtain ⟨t, ht, htk⟩ := wf.mem_roll_iff.mp hq
  rw [wf.eq_of_key_eq hs ht (hsk.trans htk.symm)]

/-- The size counts the handles that reach a slot. -/
theorem WellFormed.size_eq (wf : a.WellFormed) : a.size = a.liveHandles.length := by
  have hsize := size_eq_length_of_mem_iff wf.roll_keys_nodup wf.mem_roll_keys_iff
  rw [size, hsize, List.length_map, ← map_snd_roll, List.length_map]

end MarketSignals.Arena
