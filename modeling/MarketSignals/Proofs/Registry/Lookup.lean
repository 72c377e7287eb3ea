import MarketSignals.Registry.Arena

/-!
# The arena through its lookup

`Arena.get?` is the view of an arena that the registry works with.  This module
says what the operations of the arena do to that view and to the list of handles
on an instrument.

## Main results

* `get?_store`, `get?_remove?` — an operation changes the view at one handle
  only.
* `handlesOn_link`, `handlesOn_unlink` — registration appends to the list of one
  instrument, and removal keeps the order of the others.
-/

namespace MarketSignals.Arena

variable {ε : Type} {a b : Arena ε} {g h : Handle} {s t : Slot ε}

/-! ## The lookup -/

theorem entry?_eq_some_iff {e : Entry ε} :
    a.entry? h = some e ↔
      a.entries[h.index.toNat]? = some e ∧ e.generation = h.generation := by
  simp [Option.filter_eq_some_iff, entry?]

theorem get?_eq_some_iff :
    a.get? h = some s ↔
      ∃ e, a.entries[h.index.toNat]? = some e ∧ e.generation = h.generation ∧
        e.slot = some s := by
  simp [get?, Option.bind_eq_some_iff, entry?_eq_some_iff, and_assoc]

theorem isLive_iff : a.isLive h = true ↔ ∃ s, a.get? h = some s := by
  simp [isLive, Option.isSome_iff_exists]

/-- Handles that reach a slot in the same entry are the same handle, since they
carry the generation of the entry. -/
theorem eq_of_index_eq (hg : a.get? g = some s) (hh : a.get? h = some t)
    (hi : g.index = h.index) : g = h := by
  obtain ⟨e, he, hge, _⟩ := get?_eq_some_iff.mp hg
  obtain ⟨e', he', hge', _⟩ := get?_eq_some_iff.mp hh
  rw [hi, he'] at he
  cases he
  cases g
  cases h
  simp_all

@[simp] theorem get?_link (a : Arena ε) (h g : Handle) (key : SlotKey) :
    (a.link h key).get? g = a.get? g := rfl

@[simp] theorem get?_unlink (a : Arena ε) (h g : Handle) (key : SlotKey) :
    (a.unlink h key).get? g = a.get? g := rfl

@[simp] theorem get?_empty (h : Handle) : (empty : Arena ε).get? h = none := by
  simp [get?, entry?, empty]

/-! ## What the operations do to the lookup -/

/-- Occupying an entry is seen through the one handle with its generation. -/
theorem get?_occupy_index {e : Entry ε} (he : a.entries[h.index.toNat]? = some e)
    (hgen : e.generation = h.generation) (s : Slot ε) (g : Handle) :
    (a.occupy h.index s).get? g = if g = h then some s else a.get? g := by
  by_cases hi : h.index.toNat = g.index.toNat
  · have hidx : h.index = g.index := UInt32.toNat_inj.mp hi
    have hent : (a.occupy h.index s).entries[g.index.toNat]? = some { e with slot := some s } := by
      simp only [occupy, Array.getElem?_modify, if_pos hi]
      rw [← hi, he]
      rfl
    by_cases hgh : g = h
    · rw [if_pos hgh]
      exact get?_eq_some_iff.mpr ⟨_, hent, hgh ▸ hgen, rfl⟩
    · have hne : e.generation ≠ g.generation := by
        intro heq
        apply hgh
        cases g
        cases h
        simp_all
      rw [if_neg hgh]
      simp only [get?, entry?, hent]
      rw [← hi, he]
      simp [Option.filter_some, hne]
  · have hgh : g ≠ h := by
      rintro rfl
      exact hi rfl
    rw [if_neg hgh]
    simp only [get?, entry?, occupy, Array.getElem?_modify, if_neg hi]

/-- Replacing a slot is seen through its own handle only, and through a stale
handle not at all. -/
theorem get?_store (a : Arena ε) (h : Handle) (s : Slot ε) (g : Handle) :
    (a.store h s).get? g = if g = h ∧ a.isLive h = true then some s else a.get? g := by
  by_cases hl : a.isLive h = true
  · obtain ⟨t, ht⟩ := isLive_iff.mp hl
    obtain ⟨e, he, hgen, _⟩ := get?_eq_some_iff.mp ht
    simp only [store, hl, if_true, and_true]
    exact get?_occupy_index he hgen s g
  · simp [store, hl]

theorem isLive_store (a : Arena ε) (h : Handle) (s : Slot ε) (g : Handle) :
    (a.store h s).isLive g = a.isLive g := by
  rw [isLive, get?_store]
  split
  · next hc =>
      obtain ⟨rfl, hl⟩ := hc
      exact hl.symm
  · rfl

@[simp] theorem byKey_store (a : Arena ε) (h : Handle) (s : Slot ε) :
    (a.store h s).byKey = a.byKey := by
  simp only [store]
  split <;> rfl

@[simp] theorem byInstrument_store (a : Arena ε) (h : Handle) (s : Slot ε) :
    (a.store h s).byInstrument = a.byInstrument := by
  simp only [store]
  split <;> rfl

@[simp] theorem free_store (a : Arena ε) (h : Handle) (s : Slot ε) :
    (a.store h s).free = a.free := by
  simp only [store]
  split <;> rfl

/-! Replacing slots is like writing to places: the last write to a place counts,
and writes to two places may be exchanged. -/

theorem store_self (hs : a.get? h = some s) : a.store h s = a := by
  obtain ⟨e, he, _, hslot⟩ := get?_eq_some_iff.mp hs
  have hl : a.isLive h = true := isLive_iff.mpr ⟨s, hs⟩
  have hentries : (a.occupy h.index s).entries = a.entries := by
    apply Array.ext_getElem?
    intro n
    simp only [occupy, Array.getElem?_modify]
    by_cases hn : h.index.toNat = n
    · subst hn
      rw [if_pos rfl, he, Option.map_some, ← hslot]
    · rw [if_neg hn]
  rw [store, if_pos hl]
  show ({ a with entries := (a.occupy h.index s).entries } : Arena ε) = a
  rw [hentries]

theorem store_store (a : Arena ε) (h : Handle) (s t : Slot ε) :
    (a.store h s).store h t = a.store h t := by
  have hl := isLive_store a h s h
  by_cases hlive : a.isLive h = true
  · rw [store, hl, if_pos hlive, store, if_pos hlive, store, if_pos hlive]
    simp only [occupy, mk.injEq, and_true]
    apply Array.ext_getElem?
    intro n
    simp only [Array.getElem?_modify]
    split
    · rw [Option.map_map]
      rfl
    · rfl
  · rw [store, hl, if_neg hlive, store, if_neg hlive, store, if_neg hlive]

theorem store_comm (a : Arena ε) (hne : g ≠ h) (s t : Slot ε) :
    (a.store g s).store h t = (a.store h t).store g s := by
  have hlh := isLive_store a g s h
  have hlg := isLive_store a h t g
  rw [store, hlh, store.eq_def (a.store h t), hlg]
  by_cases hg : a.isLive g = true
  · by_cases hh : a.isLive h = true
    · obtain ⟨s', hs'⟩ := isLive_iff.mp hg
      obtain ⟨t', ht'⟩ := isLive_iff.mp hh
      have hindex : g.index.toNat ≠ h.index.toNat :=
        fun heq => hne (eq_of_index_eq hs' ht' (UInt32.toNat_inj.mp heq))
      rw [if_pos hh, if_pos hg, store, if_pos hg, store, if_pos hh]
      simp only [occupy, mk.injEq, and_true]
      apply Array.ext_getElem?
      intro n
      simp only [Array.getElem?_modify]
      by_cases hgn : g.index.toNat = n
      · have hhn : h.index.toNat ≠ n := fun heq => hindex (hgn.trans heq.symm)
        simp only [if_pos hgn, if_neg hhn]
      · simp only [if_neg hgn]
    · rw [if_neg hh, if_pos hg, store, if_pos hg, store, if_neg hh]
  · by_cases hh : a.isLive h = true
    · rw [if_pos hh, if_neg hg, store, if_neg hg, store, if_pos hh]
    · rw [if_neg hh, if_neg hg, store, if_neg hg, store, if_neg hh]

/-- Vacating the entry of a live handle takes that handle away and no other. -/
theorem get?_vacate (ht : a.get? h = some t) (g : Handle) :
    (a.vacate h.index).get? g = if g = h then none else a.get? g := by
  obtain ⟨e, he, hgen, _⟩ := get?_eq_some_iff.mp ht
  by_cases hi : h.index.toNat = g.index.toNat
  · have hnone : (a.vacate h.index).get? g = none := by
      simp only [get?, entry?, vacate, Array.getElem?_modify, if_pos hi]
      rw [← hi, he]
      simp only [Option.map_some, Option.filter_some]
      split <;> rfl
    rw [hnone]
    split
    · rfl
    · next hgh =>
        cases hg : a.get? g with
        | none => rfl
        | some t' => exact absurd (eq_of_index_eq hg ht (UInt32.toNat_inj.mp hi).symm) hgh
  · have hgh : g ≠ h := by
      rintro rfl
      exact hi rfl
    rw [if_neg hgh]
    simp only [get?, entry?, vacate, Array.getElem?_modify, if_neg hi]

/-- Removal gives the slot that the handle reached, and vacates and unlinks it. -/
theorem remove?_eq_some_iff :
    a.remove? h = some (s, b) ↔
      a.get? h = some s ∧ b = (a.vacate h.index).unlink h s.key := by
  simp only [remove?, Option.map_eq_some_iff, Prod.mk.injEq]
  constructor
  · rintro ⟨t, ht, rfl, rfl⟩
    exact ⟨ht, rfl⟩
  · rintro ⟨hs, rfl⟩
    exact ⟨s, hs, rfl, rfl⟩

/-- After a removal its handle is stale and the others reach what they did. -/
theorem get?_remove? (hr : a.remove? h = some (s, b)) (g : Handle) :
    b.get? g = if g = h then none else a.get? g := by
  obtain ⟨hs, rfl⟩ := remove?_eq_some_iff.mp hr
  rw [get?_unlink, get?_vacate hs]

/-! ## The index of instruments -/

theorem handlesOn_eq (a : Arena ε) (i : InstrumentId) :
    a.handlesOn i = a.byInstrument[i]?.getD [] := by
  simp [handlesOn, Std.ExtHashMap.getD_eq_getD_getElem?]

/-- A new handle goes to the end of the list of its instrument. -/
theorem handlesOn_link (a : Arena ε) (h : Handle) (key : SlotKey) (i : InstrumentId) :
    (a.link h key).handlesOn i =
      if i = key.instrumentId then a.handlesOn i ++ [h] else a.handlesOn i := by
  simp only [handlesOn_eq, link, Std.ExtHashMap.getElem?_insert, beq_iff_eq]
  by_cases hi : key.instrumentId = i
  · subst hi
    simp
  · rw [if_neg hi, if_neg (Ne.symm hi)]

/-- A removed handle leaves the list of its instrument; the others keep their
order. -/
theorem handlesOn_unlink (a : Arena ε) (h : Handle) (key : SlotKey) (i : InstrumentId) :
    (a.unlink h key).handlesOn i =
      if i = key.instrumentId then (a.handlesOn i).filter (· != h) else a.handlesOn i := by
  by_cases hi : key.instrumentId = i
  · subst hi
    simp only [handlesOn_eq, unlink, if_true]
    split
    · next he => simpa using he
    · simp
  · rw [if_neg (Ne.symm hi)]
    simp only [handlesOn_eq, unlink]
    split <;> simp [Std.ExtHashMap.getElem?_erase, Std.ExtHashMap.getElem?_insert, hi]

/-- No instrument is listed without a handle. -/
def NoEmptyList (a : Arena ε) : Prop := ∀ i : InstrumentId, a.byInstrument[i]? ≠ some []

theorem NoEmptyList.link (ha : a.NoEmptyList) (h : Handle) (key : SlotKey) :
    (a.link h key).NoEmptyList := by
  intro i
  simp only [Arena.link, Std.ExtHashMap.getElem?_insert]
  split
  · simp
  · exact ha i

theorem NoEmptyList.unlink (ha : a.NoEmptyList) (h : Handle) (key : SlotKey) :
    (a.unlink h key).NoEmptyList := by
  intro i
  simp only [Arena.unlink]
  split
  · simp only [Std.ExtHashMap.getElem?_erase]
    split
    · simp
    · exact ha i
  · next hne =>
      simp only [Std.ExtHashMap.getElem?_insert]
      split
      · intro heq
        exact hne (by simpa using heq)
      · exact ha i

end MarketSignals.Arena
