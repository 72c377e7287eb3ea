import MarketSignals.Proofs.Registry.Tenure

/-!
# Registrations one after the other

In a registry that nothing is ever removed from, registrations fill the entries one after
the other.  All that can go wrong is a pair of names that comes a second time, or more
registrations than handles can tell apart.

## Main definitions

* `Handle.nth` — the handle of a slot by its place.
* `Registry.Enrolled` — a registry that holds a list of new slots, in order.

## Main results

* `Enrolled.register_new`, `Enrolled.register_repeated`, `Enrolled.register_full` — one
  registration.
* `Enrolled.observed_eq` — what a new slot gives in the course of calls.
* `Enrolled.performAll_register` — calls behind a registration.
-/

namespace MarketSignals

variable {ε : Type}

/-- The handle of a slot by its place in a registry that nothing was removed from. -/
def Handle.nth (n : Nat) : Handle := ⟨UInt32.ofNat n, 0⟩

/-- The slots on an instrument with their places, in order. -/
def placesOn (slots : List (Slot ε)) (i : InstrumentId) : List (Slot ε × Nat) :=
  slots.zipIdx.filter (·.1.instrumentId = i)

theorem placesOn_append (slots : List (Slot ε)) (s : Slot ε) (i : InstrumentId) :
    placesOn (slots ++ [s]) i =
      placesOn slots i ++ if s.instrumentId = i then [(s, slots.length)] else [] := by
  unfold placesOn
  rw [List.zipIdx_append, List.filter_append]
  by_cases hi : s.instrumentId = i
  · simp [hi]
  · simp [hi]

/-! ## The arena -/

namespace Arena

variable {a : Arena ε} {s : Slot ε}

/-- Without a free entry a new slot goes to the end. -/
theorem insert_of_room (hfree : a.free = []) (hroom : a.entries.size < capacity) (s : Slot ε) :
    ∃ b, a.insert s = .ok (.nth a.entries.size, b) ∧
      b.entries = a.entries.push ⟨0, some s⟩ ∧ b.free = [] := by
  have hi : (UInt32.ofNat a.entries.size).toNat = a.entries.size :=
    UInt32.toNat_ofNat_of_lt' hroom
  have hallocate : a.allocate =
      .ok (UInt32.ofNat a.entries.size, { a with entries := a.entries.push ⟨0, none⟩ }) := by
    unfold allocate
    rw [hfree]
    exact if_pos hroom
  refine ⟨(({ a with entries := a.entries.push ⟨0, none⟩ } : Arena ε).occupy
    (UInt32.ofNat a.entries.size) s).link (.nth a.entries.size) s.key, ?_, ?_, hfree⟩
  · unfold insert
    rw [hallocate]
    simp [bind, Except.bind, hi]
    rfl
  · show (a.entries.push ⟨0, none⟩).modify (UInt32.ofNat a.entries.size).toNat
      (fun e => { e with slot := some s }) = _
    rw [hi]
    refine Array.ext_getElem? fun n => ?_
    rw [Array.getElem?_modify, Array.getElem?_push, Array.getElem?_push]
    by_cases hn : n = a.entries.size
    · simp [hn]
    · rw [if_neg hn, if_neg hn, if_neg (Ne.symm hn)]

/-- Without a free entry or room for another one there is no place for a slot. -/
theorem insert_of_full (hfree : a.free = []) (hfull : ¬ a.entries.size < capacity) (s : Slot ε) :
    a.insert s = .error (.invariant "estimator arena is full") := by
  have hallocate : a.allocate = .error (.invariant "estimator arena is full") := by
    unfold allocate
    rw [hfree]
    exact if_neg hfull
  unfold insert
  rw [hallocate]
  rfl

end Arena

namespace Registry

variable {r : Registry ε} {slots : List (Slot ε)} {k : SlotKey} {config : AlphaConfig} {a : Alpha}

/-- A registry holds new slots, each in the entry of its place, and nothing else. -/
structure Enrolled (slots : List (Slot ε)) (r : Registry ε) : Prop where
  wellFormed : r.WellFormed
  entries : r.arena.entries = (slots.map fun s => ⟨0, some s⟩).toArray
  free : r.arena.free = []
  handlesOn : ∀ i, r.handlesOn i = (placesOn slots i).map (.nth ·.2)
  latest : r.latest = ∅

theorem enrolled_empty : Enrolled [] (empty : Registry ε) where
  wellFormed := empty_logged.wellFormed
  entries := rfl
  free := rfl
  handlesOn := by
    intro i
    simp [Registry.handlesOn, Arena.handlesOn_eq, empty, Arena.empty, placesOn]
  latest := rfl

namespace Enrolled

theorem size_entries (h : Enrolled slots r) : r.arena.entries.size = slots.length := by
  rw [h.entries]
  simp

theorem length_le (h : Enrolled slots r) : slots.length ≤ Arena.capacity :=
  h.size_entries ▸ h.wellFormed.arena.size_le

/-- A handle reaches the slot at its place. -/
theorem get?_eq_some_iff (h : Enrolled slots r) {g : Handle} {s : Slot ε} :
    r.arena.get? g = some s ↔ ∃ n, slots[n]? = some s ∧ g = .nth n := by
  rw [Arena.get?_eq_some_iff, h.entries]
  simp only [List.getElem?_toArray, List.getElem?_map, Option.map_eq_some_iff]
  constructor
  · rintro ⟨_, ⟨t, ht, rfl⟩, hgeneration, hslot⟩
    cases hslot
    refine ⟨g.index.toNat, ht, ?_⟩
    rw [Handle.nth, UInt32.ofNat_toNat]
    exact congrArg (Handle.mk g.index) hgeneration.symm
  · rintro ⟨n, hn, rfl⟩
    have hlt : n < UInt32.size :=
      Nat.lt_of_lt_of_le (List.getElem?_eq_some_iff.mp hn).1 h.length_le
    have hplace : (Handle.nth n).index.toNat = n := UInt32.toNat_ofNat_of_lt' hlt
    exact ⟨⟨0, some s⟩, ⟨s, by rw [hplace, hn], rfl⟩, rfl, rfl⟩

/-- A pair of names is taken if a slot has it. -/
theorem contains_byKey_iff (h : Enrolled slots r) :
    r.arena.byKey.contains k = true ↔ k ∈ slots.map Slot.key := by
  rw [← Std.ExtHashMap.mem_iff_contains, Std.ExtHashMap.mem_iff_isSome_getElem?,
    Option.isSome_iff_exists, List.mem_map]
  constructor
  · rintro ⟨g, hg⟩
    obtain ⟨s, hs, hkey⟩ := (h.wellFormed.arena.byKey_iff k g).mp hg
    obtain ⟨n, hn, -⟩ := h.get?_eq_some_iff.mp hs
    exact ⟨s, List.mem_of_getElem? hn, hkey⟩
  · rintro ⟨s, hs, hkey⟩
    obtain ⟨n, hn⟩ := List.mem_iff_getElem?.mp hs
    exact ⟨.nth n, (h.wellFormed.arena.byKey_iff k _).mpr
      ⟨s, h.get?_eq_some_iff.mpr ⟨n, hn, rfl⟩, hkey⟩⟩

theorem getElem?_eq_of_nth_eq (h : Enrolled slots r) {m n : Nat} {s t : Slot ε}
    (hm : slots[m]? = some s) (hn : slots[n]? = some t) (heq : Handle.nth m = .nth n) : m = n := by
  have hplace : ∀ {n : Nat} {s : Slot ε}, slots[n]? = some s → (UInt32.ofNat n).toNat = n := by
    intro n s hn
    exact UInt32.toNat_ofNat_of_lt'
      (Nat.lt_of_lt_of_le (List.getElem?_eq_some_iff.mp hn).1 h.length_le)
  rw [← hplace hm, ← hplace hn]
  exact congrArg (·.index.toNat) heq

/-- No two slots have the same names. -/
theorem keys_nodup (h : Enrolled slots r) : (slots.map Slot.key).Nodup := by
  rw [List.nodup_iff_getElem?_ne_getElem?]
  intro m n hmn hn heq
  rw [List.length_map] at hn
  have hm : m < slots.length := Nat.lt_trans hmn hn
  have hs : slots[m]? = some slots[m] := List.getElem?_eq_getElem hm
  have ht : slots[n]? = some slots[n] := List.getElem?_eq_getElem hn
  have hkey : slots[m].key = slots[n].key := by simpa [hm, hn] using heq
  have hhandle := h.wellFormed.arena.eq_of_key_eq (h.get?_eq_some_iff.mpr ⟨m, hs, rfl⟩)
    (h.get?_eq_some_iff.mpr ⟨n, ht, rfl⟩) hkey
  exact Nat.ne_of_lt hmn (h.getElem?_eq_of_nth_eq hs ht hhandle)

/-- The slots on an instrument are described in order. -/
theorem infosOn_eq (h : Enrolled slots r) (i : InstrumentId) :
    r.infosOn i = (placesOn slots i).map fun (s, n) => s.info (.nth n) := by
  unfold infosOn slotsOn Arena.slotsOn
  rw [← Registry.handlesOn, h.handlesOn, List.filterMap_map, List.map_filterMap,
    ← List.filterMap_eq_map]
  refine List.filterMap_congr ?_
  rintro ⟨s, n⟩ hm
  have hn : slots[n]? = some s := List.mem_zipIdx_iff_getElem?.mp (List.mem_filter.mp hm).1
  have hs : r.arena.get? (.nth n) = some s := h.get?_eq_some_iff.mpr ⟨n, hn, rfl⟩
  simp [hs]

theorem size_eq (h : Enrolled slots r) : r.size = slots.length := by
  have hlive : r.arena.liveHandles = slots.zipIdx.map fun (_, n) => .nth n := by
    unfold Arena.liveHandles
    rw [h.entries, List.zipIdx_map, List.filterMap_map, ← List.filterMap_eq_map]
    rfl
  rw [Registry.size, h.wellFormed.arena.size_eq, hlive, List.length_map, List.length_zipIdx]

theorem lookup_eq_ok_iff (h : Enrolled slots r) {alphaId : AlphaId}
    {instrumentId : InstrumentId} {g : Handle} :
    r.lookup alphaId instrumentId = .ok g ↔
      ∃ n s, slots[n]? = some s ∧ s.key = ⟨alphaId, instrumentId⟩ ∧ g = .nth n := by
  rw [Registry.lookup_eq_ok_iff, h.wellFormed.arena.byKey_iff]
  constructor
  · rintro ⟨s, hs, hkey⟩
    obtain ⟨n, hn, rfl⟩ := h.get?_eq_some_iff.mp hs
    exact ⟨n, s, hn, hkey, rfl⟩
  · rintro ⟨n, s, hn, hkey, rfl⟩
    exact ⟨s, h.get?_eq_some_iff.mpr ⟨n, hn, rfl⟩, hkey⟩

/-- A slot with new names goes to the end. -/
theorem insert (h : Enrolled slots r) {s : Slot ε} (hnew : s.key ∉ slots.map Slot.key)
    (hroom : slots.length < Arena.capacity) :
    ∃ b, r.arena.insert s = .ok (.nth slots.length, b) ∧
      Enrolled (slots ++ [s]) { r with arena := b } := by
  obtain ⟨b, hinsert, hentries, hfree⟩ :=
    Arena.insert_of_room h.free (h.size_entries ▸ hroom) s
  rw [h.size_entries] at hinsert
  have hnone : r.arena.byKey[s.key]? = none := by
    simpa using mt h.contains_byKey_iff.mp hnew
  have henrols : Enrols r (.nth slots.length) { r with arena := b } :=
    ⟨⟨s, hnone, hinsert⟩, rfl⟩
  refine ⟨b, hinsert, ?_⟩
  exact
    { wellFormed := henrols.wellFormed h.wellFormed
      entries := by
        show b.entries = _
        rw [hentries, h.entries]
        simp
      free := hfree
      handlesOn := by
        intro i
        show b.handlesOn i = _
        rw [h.wellFormed.arena.handlesOn_insert hinsert, ← Registry.handlesOn, h.handlesOn,
          placesOn_append, List.map_append]
        by_cases hi : s.instrumentId = i
        · rw [if_pos hi, if_pos hi.symm]
          rfl
        · rw [if_neg hi, if_neg (Ne.symm hi)]
          simp
      latest := h.latest }

end Enrolled

/-! ## One registration -/

variable [AlphaHost ε]

theorem slot_of_ofAlpha [LawfulAlphaHost ε] (k : SlotKey) (a : Alpha) :
    Slot.of k.alphaId k.instrumentId (AlphaHost.ofAlpha a : ε) = .ok (freshSlot k a).host := by
  unfold Slot.of
  rw [LawfulAlphaHost.requiredFields_ofAlpha, LawfulAlphaHost.kind_ofAlpha]
  rfl

/-- Settings that build an estimator are registered if their names are not taken and
there is room. -/
theorem register_eq [LawfulAlphaHost ε] (hb : config.build = .ok a) :
    r.register k.alphaId k.instrumentId config =
      if r.arena.byKey.contains k then
        .error (.refused (.duplicateRegistration k.alphaId.name k.instrumentId.name))
      else
        ((r.arena.insert (freshSlot k a).host).mapError .refused).map fun (h, arena) =>
          (h, { r with arena }) := by
  unfold register
  rw [hb]
  show r.registerEstimator k.alphaId k.instrumentId (AlphaHost.ofAlpha a) = _
  unfold registerEstimator
  rw [LawfulAlphaHost.kind_ofAlpha, slot_of_ofAlpha]
  by_cases hk : r.arena.byKey.contains k = true
  · rw [if_pos hk, if_pos hk]
    rfl
  · rw [if_neg hk, if_neg hk]
    show (r.arena.insert (freshSlot k a).host).mapError Fault.refused >>= (fun (h, arena) =>
      (pure (h, { r with arena }) : Except Fault (Handle × Registry ε))) = _
    cases r.arena.insert (freshSlot k a).host <;> rfl

namespace Enrolled

variable [LawfulAlphaHost ε]

/-- Names that are taken are refused. -/
theorem register_repeated (h : Enrolled slots r) (hb : config.build = .ok a)
    (hk : k ∈ slots.map Slot.key) :
    r.register k.alphaId k.instrumentId config =
      .error (.refused (.duplicateRegistration k.alphaId.name k.instrumentId.name)) := by
  rw [register_eq hb, if_pos (h.contains_byKey_iff.mpr hk)]

/-- There are no more slots than handles. -/
theorem register_full (h : Enrolled slots r) (hb : config.build = .ok a)
    (hk : k ∉ slots.map Slot.key) (hfull : slots.length = Arena.capacity) :
    r.register k.alphaId k.instrumentId config =
      .error (.refused (.invariant "estimator arena is full")) := by
  have hroom : ¬ r.arena.entries.size < Arena.capacity := by
    rw [h.size_entries, hfull]
    exact Nat.lt_irrefl _
  rw [register_eq hb, if_neg (mt h.contains_byKey_iff.mp hk), Arena.insert_of_full h.free hroom]
  rfl

/-- New names are registered at the end. -/
theorem register_new (h : Enrolled slots r) (hb : config.build = .ok a)
    (hk : k ∉ slots.map Slot.key) (hroom : slots.length < Arena.capacity) :
    ∃ r', r.register k.alphaId k.instrumentId config = .ok (.nth slots.length, r') ∧
      Enrolled (slots ++ [(freshSlot k a).host]) r' := by
  obtain ⟨b, hinsert, henrolled⟩ := h.insert (s := (freshSlot k a).host) hk hroom
  refine ⟨{ r with arena := b }, ?_, henrolled⟩
  rw [register_eq hb, if_neg (mt h.contains_byKey_iff.mp hk), hinsert]
  rfl

end Enrolled

/-- What a new slot of the engine's estimators gives in the course of calls that do not
remove it. -/
theorem Enrolled.observed_eq {r : Registry Alpha} {slots : List (Slot Alpha)}
    (h : Enrolled slots r) {n : Nat} (hn : slots[n]? = some (freshSlot k a))
    {calls : List (Call Alpha)} (hkept : ∀ call ∈ calls, ¬ call.Removes (.nth n)) :
    observed (.nth n) k.alphaId k.instrumentId (r.performAll calls).1 =
      (freshCell k a).replay (calls.filterMap (Call.concern? (.nth n) k.instrumentId)) := by
  have hcell : r.cell? (.nth n) = some (freshCell k a) := by
    refine cell?_eq_some_iff.mpr ⟨h.get?_eq_some_iff.mpr ⟨n, hn, rfl⟩, ?_⟩
    rw [h.latest]
    simp [freshCell]
  have hrun := run_performAll r fun order hm => hkept (.clear order) hm trivial
  have hcalls := map_call_performAll r calls
  have hseen := observed_eq_replay h.wellFormed hrun hcell fun step hm =>
    hkept _ (hcalls ▸ List.mem_map_of_mem hm)
  rw [concerns_eq, hcalls] at hseen
  exact hseen

end Registry

end MarketSignals
