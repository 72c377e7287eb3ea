import Mathlib.Algebra.Group.Nat.Defs
import MarketSignals.Proofs.Registry.Isolation

/-!
# How long a handle stays stale

A handle carries the generation that its entry had when it was given out.  Each
removal moves the generation of the entry on by one, and nothing else does, so in
later states the generation tells the number of removals up to multiples of
`2 ^ 32`.  A handle whose registration is gone therefore reaches nothing until
the generation has come round, and then it reaches whatever is there.

## Main definitions

* `occupant?` — the slot in an entry, whoever has a handle to it.
* `removals` — how often a run removes a slot from an entry.
* `Aged` — what becomes of an entry between two registrations.
* `Refuses` — a handle through which nothing can be done.

## Main results

* `perform_entry`, `run_entry` — the generation of an entry counts its removals.
* `stale_until_generations_wrap` — what a handle reaches, for every run.
-/

namespace MarketSignals

variable {ε : Type}

/-- The slot in the entry at an index. -/
def Arena.occupant? (a : Arena ε) (index : UInt32) : Option (Slot ε) :=
  a.entries[index.toNat]?.bind (·.slot)

namespace Registry

variable {r r' : Registry ε} {g h : Handle} {s t : Slot ε} {e e' e'' : Entry ε} {n : Nat}

/-! ## Entries -/

/-- What may become of an entry unless something is registered in it. -/
inductive Aged (e e' : Entry ε) : Prop
  | kept (generation : e'.generation = e.generation) (slot : e'.slot.isSome = e.slot.isSome)
  | emptied (full : e.slot.isSome = true) (generation : e'.generation = e.generation + 1)
      (slot : e'.slot = none)

theorem Aged.refl (e : Entry ε) : Aged e e := .kept rfl rfl

/-- An entry is emptied at most once, since it stays empty. -/
theorem Aged.trans (h₁ : Aged e e') (h₂ : Aged e' e'') : Aged e e'' := by
  cases h₁ with
  | kept hgen hslot =>
      cases h₂ with
      | kept hgen' hslot' => exact .kept (hgen'.trans hgen) (hslot'.trans hslot)
      | emptied full hgen' hslot' => exact .emptied (hslot ▸ full) (hgen ▸ hgen') hslot'
  | emptied full hgen hslot =>
      cases h₂ with
      | kept hgen' hslot' =>
          refine .emptied full (hgen'.trans hgen) ?_
          rw [hslot] at hslot'
          simpa using hslot'
      | emptied full' _ _ =>
          rw [hslot] at full'
          cases full'

theorem Change.aged (hc : Change r r') (he : r.arena.entries[n]? = some e) :
    ∃ e', r'.arena.entries[n]? = some e' ∧ Aged e e' := by
  cases hc with
  | @store h s sameNames =>
      by_cases hl : r.arena.isLive h = true
      · obtain ⟨t, ht⟩ := Arena.isLive_iff.mp hl
        obtain ⟨e₀, he₀, _, hslot⟩ := Arena.get?_eq_some_iff.mp ht
        simp only [Registry.store, Arena.store, hl, if_true, Arena.occupy, Array.getElem?_modify]
        by_cases hn : h.index.toNat = n
        · subst hn
          rw [he] at he₀
          cases he₀
          exact ⟨{ e with slot := some s }, by simp [he], .kept rfl (by simp [hslot])⟩
        · exact ⟨e, by rw [if_neg hn, he], .refl e⟩
      · simp only [Registry.store, Arena.store, if_neg hl]
        exact ⟨e, he, .refl e⟩
  | @remove h s arena removed =>
      obtain ⟨hs, rfl⟩ := Arena.remove?_eq_some_iff.mp removed
      obtain ⟨e₀, he₀, _, hslot⟩ := Arena.get?_eq_some_iff.mp hs
      simp only [Arena.unlink, Arena.vacate, Array.getElem?_modify]
      by_cases hn : h.index.toNat = n
      · subst hn
        rw [he] at he₀
        cases he₀
        exact ⟨⟨e.generation + 1, none⟩, by simp [he], .emptied (by simp [hslot]) rfl rfl⟩
      · exact ⟨e, by rw [if_neg hn, he], .refl e⟩
  | publish | forget | forgetAll => exact ⟨e, he, .refl e⟩

theorem Changes.aged (hc : Changes r r') (he : r.arena.entries[n]? = some e) :
    ∃ e', r'.arena.entries[n]? = some e' ∧ Aged e e' := by
  induction hc with
  | refl => exact ⟨e, he, .refl e⟩
  | tail _ hstep ih =>
      obtain ⟨e₁, he₁, haged₁⟩ := ih
      obtain ⟨e₂, he₂, haged₂⟩ := hstep.aged he₁
      exact ⟨e₂, he₂, haged₁.trans haged₂⟩

/-- An allocation keeps the entries that there are. -/
theorem entries_allocate {a b : Arena ε} {i : UInt32} (ha : a.allocate = .ok (i, b))
    (he : a.entries[n]? = some e) : b.entries[n]? = some e := by
  unfold Arena.allocate at ha
  split at ha
  · cases ha
    exact he
  · split at ha
    · cases ha
      have hn : n < a.entries.size := (Array.getElem?_eq_some_iff.mp he).1
      rw [Array.getElem?_push_lt hn, ← he]
      exact (Array.getElem?_eq_getElem hn).symm
    · cases ha

/-- A registration keeps the generation of every entry, and takes no slot away. -/
theorem entry_insert {a b : Arena ε} (hins : a.insert s = .ok (h, b))
    (he : a.entries[n]? = some e) :
    ∃ e', b.entries[n]? = some e' ∧ e'.generation = e.generation ∧
      (e.slot.isSome = true → e'.slot.isSome = true) := by
  obtain ⟨⟨i, mid⟩, ha, hins⟩ := bind_eq_ok_iff.mp hins
  have hmid := entries_allocate ha he
  cases hins
  simp only [Arena.link, Arena.occupy, Array.getElem?_modify]
  by_cases hn : i.toNat = n
  · exact ⟨{ e with slot := some s }, by simp [hn, hmid], rfl, fun _ => rfl⟩
  · exact ⟨e, by rw [if_neg hn, hmid], rfl, id⟩

/-! ## Counting removals -/

/-- Whether an entry holds a slot in one registry and none in the other.  A call
that removes slots registers nothing, so this finds each removal that a call makes
from the entry, and there is at most one. -/
def vacates (r r' : Registry ε) (index : UInt32) : Bool :=
  (r.arena.occupant? index).isSome && (r'.arena.occupant? index).isNone

/-- How often a run removes a slot from an entry. -/
def removals [AlphaHost ε] (r : Registry ε) (index : UInt32) : List (Step ε) → Nat
  | [] => 0
  | step :: rest =>
      (if r.vacates (r.perform step.call).2 index then 1 else 0) +
        (r.perform step.call).2.removals index rest

theorem occupant?_of_entry {a : Arena ε} {index : UInt32}
    (he : a.entries[index.toNat]? = some e) : a.occupant? index = e.slot := by
  rw [Arena.occupant?, he, Option.bind_some]

/-- One call moves the generation of an entry on by what it removes from it. -/
theorem perform_entry [AlphaHost ε] {c : Call ε} {a : Answer} (hp : r.perform c = (a, r'))
    {index : UInt32} (he : r.arena.entries[index.toNat]? = some e) :
    ∃ e', r'.arena.entries[index.toNat]? = some e' ∧
      e'.generation = e.generation + UInt32.ofNat (if r.vacates r' index then 1 else 0) := by
  rcases perform_cases hp with ⟨g, _, hen⟩ | ⟨_, hc⟩
  · obtain ⟨s, _, hins⟩ := hen.inserted
    obtain ⟨e', he', hgen, hslot⟩ := entry_insert hins he
    have hkept : r.vacates r' index = false := by
      rw [vacates, occupant?_of_entry he, occupant?_of_entry he']
      cases hfull : e.slot.isSome with
      | false => rfl
      | true => rw [Option.isNone_eq_false_iff.mpr (hslot hfull), Bool.and_false]
    exact ⟨e', he', by simp [hkept, hgen]⟩
  · obtain ⟨e', he', haged⟩ := hc.aged he
    refine ⟨e', he', ?_⟩
    rw [vacates, occupant?_of_entry he, occupant?_of_entry he']
    cases haged with
    | kept hgen hslot => cases hfull : e.slot <;> cases hfull' : e'.slot <;> simp_all
    | emptied full hgen hslot => simp [full, hslot, hgen]

/-- Over a run the generation of an entry counts its removals, as a word. -/
theorem run_entry [AlphaHost ε] {steps : List (Step ε)} (hr : Run r steps r') {index : UInt32}
    (he : r.arena.entries[index.toNat]? = some e) :
    ∃ e', r'.arena.entries[index.toNat]? = some e' ∧
      e'.generation = e.generation + UInt32.ofNat (r.removals index steps) := by
  induction hr generalizing e with
  | nil => exact ⟨e, he, by simp [removals]⟩
  | @cons r r₁ r₂ c a rest _ performed _ ih =>
      obtain ⟨e₁, he₁, hgen₁⟩ := perform_entry performed he
      obtain ⟨e₂, he₂, hgen₂⟩ := ih he₁
      refine ⟨e₂, he₂, ?_⟩
      rw [hgen₂, hgen₁]
      simp only [removals, performed, UInt32.ofNat_add, UInt32.add_assoc]

/-! ## Registrations that last -/

/-- A handle goes on reaching a slot under the same names if nothing is removed
from its entry. -/
theorem perform_live [AlphaHost ε] {c : Call ε} {a : Answer} (wf : r.WellFormed)
    (hp : r.perform c = (a, r')) (hs : r.arena.get? h = some s)
    (hkept : r.vacates r' h.index = false) : ∃ t, r'.arena.get? h = some t ∧ t.key = s.key := by
  rcases perform_cases hp with ⟨g, _, hen⟩ | ⟨_, hc⟩
  · exact ⟨s, (cell?_eq_some_iff.mp (cell?_enrols wf hen (cell?_of_get? hs))).1, rfl⟩
  · obtain ⟨e, he, hgen, hslot⟩ := Arena.get?_eq_some_iff.mp hs
    obtain ⟨e', he', haged⟩ := hc.aged he
    rw [vacates, occupant?_of_entry he, occupant?_of_entry he', hslot] at hkept
    cases haged with
    | emptied _ _ hnone =>
        rw [hnone] at hkept
        cases hkept
    | kept hgen' hsome =>
        rw [hslot, Option.isSome_some, Option.isSome_iff_exists] at hsome
        obtain ⟨t, ht⟩ := hsome
        have hget : r'.arena.get? h = some t :=
          Arena.get?_eq_some_iff.mpr ⟨e', he', hgen'.trans hgen, ht⟩
        obtain ⟨s', hs', hkey⟩ := hc.narrows.get? h t hget
        rw [hs] at hs'
        cases hs'
        exact ⟨t, hget, hkey⟩

theorem run_live [AlphaHost ε] {steps : List (Step ε)} (wf : r.WellFormed) (hr : Run r steps r')
    (hs : r.arena.get? h = some s) (hkept : r.removals h.index steps = 0) :
    ∃ t, r'.arena.get? h = some t ∧ t.key = s.key := by
  induction hr generalizing s with
  | nil => exact ⟨s, hs, rfl⟩
  | @cons r r₁ r₂ c a rest _ performed _ ih =>
      simp only [removals, performed] at hkept
      have hvacates : r.vacates r₁ h.index = false := by
        rw [Bool.eq_false_iff]
        intro htrue
        rw [if_pos htrue] at hkept
        omega
      obtain ⟨t, ht, hkey⟩ := perform_live wf performed hs hvacates
      obtain ⟨u, hu, hkey'⟩ := ih (perform_wellFormed wf performed) ht (by omega)
      exact ⟨u, hu, hkey'.trans hkey⟩

/-! ## What a handle reaches -/

/-- The names that a call registers an estimator under. -/
def Call.names? : Call ε → Option SlotKey
  | .register alphaId instrumentId _ => some ⟨alphaId, instrumentId⟩
  | .registerEstimator alphaId instrumentId _ => some ⟨alphaId, instrumentId⟩
  | _ => none

theorem answer_ne_handle {β : Type} {f : β → Reply} (hf : ∀ x g, f x ≠ .handle g)
    (x : Except EngineError β) (h : Handle) : answer f x ≠ .ok (.handle h) := by
  cases x with
  | error error => exact fun heq => by cases heq
  | ok x => exact fun heq => hf x h (Except.ok.inj heq)

/-- A call that gives a handle out has registered an estimator under its names. -/
theorem registerEstimator_of_issued [AlphaHost ε] {c : Call ε}
    (hp : r.perform c = (.ok (.handle h), r')) :
    ∃ alphaId i estimator, c.names? = some ⟨alphaId, i⟩ ∧
      r.registerEstimator alphaId i estimator = .ok (h, r') := by
  cases c with
  | register alphaId i config =>
      rcases enrolled_eq hp with ⟨g, hreg, heq⟩ | ⟨_, _, heq, _⟩
      · cases heq
        obtain ⟨alpha, _, hreg⟩ := bind_eq_ok_iff.mp hreg
        exact ⟨alphaId, i, _, rfl, hreg⟩
      · cases heq
  | registerEstimator alphaId i estimator =>
      rcases enrolled_eq hp with ⟨g, hreg, heq⟩ | ⟨_, _, heq, _⟩
      · cases heq
        exact ⟨alphaId, i, _, rfl, hreg⟩
      · cases heq
  | deregister g =>
      rcases removed_eq hp with ⟨_, heq⟩ | ⟨_, _, heq, _⟩ <;> cases heq
  | clear order => cases hp
  | dispatch event => cases hp
  | update g event => exact absurd (congrArg Prod.fst hp) (answer_ne_handle (by simp) _ _)
  | reset g => exact absurd (congrArg Prod.fst hp) (answer_ne_handle (by simp) _ _)
  | rebase g => exact absurd (congrArg Prod.fst hp) (answer_ne_handle (by simp) _ _)
  | referenceBinning g => exact absurd (congrArg Prod.fst hp) (answer_ne_handle (by simp) _ _)
  | installReference g counts =>
      exact absurd (congrArg Prod.fst hp) (answer_ne_handle (by simp) _ _)
  | latest g => exact absurd (congrArg Prod.fst hp) (answer_ne_handle (by simp) _ _)

/-- The handle reaches a slot under its names, for which there is no output yet. -/
theorem cell?_of_issued [AlphaHost ε] {c : Call ε} (wf : r.WellFormed)
    (hp : r.perform c = (.ok (.handle h), r')) :
    ∃ s, r'.cell? h = some ⟨s, none⟩ ∧ c.names? = some s.key := by
  obtain ⟨alphaId, i, estimator, hnames, hreg⟩ := registerEstimator_of_issued hp
  obtain ⟨s, hs, hcell⟩ := cell?_registerEstimator wf hreg
  obtain ⟨rfl, rfl, _⟩ := slot_of_eq_ok hs
  exact ⟨s, hcell, hnames⟩

/-- Nothing can be done through a handle: every call answers that it is not
registered, and changes nothing. -/
structure Refuses [AlphaHost ε] (r : Registry ε) (h : Handle) : Prop where
  touch : ∀ t : Touch, r.perform (t.on h) = (.error (.refused (staleError h)), r)
  deregister : r.perform (.deregister h) = (.error (.refused (staleError h)), r)
  describe : r.describe h = .error (staleError h)

theorem refuses_of_get? [AlphaHost ε] (hnone : r.arena.get? h = none) : r.Refuses h where
  touch := perform_touch_stale (by rw [cell?, hnone, Option.map_none])
  deregister := by
    show r.removed (r.deregister h) = _
    have hstale : r.deregister h = .error (staleError h) := by
      unfold Registry.deregister
      rw [Arena.remove?, hnone, Option.map_none]
    rw [hstale]
    rfl
  describe := by
    unfold Registry.describe Registry.slot
    rw [hnone]
    rfl

/-- A word is zero exactly for the multiples of its range. -/
theorem ofNat_eq_zero_iff (n : Nat) : UInt32.ofNat n = 0 ↔ 2 ^ 32 ∣ n := by
  rw [UInt32.ofNat_eq_iff_mod_eq_toNat, Nat.dvd_iff_mod_eq_zero]
  rfl

/-- After any number of removals a handle reaches what is in its entry if that
number is a multiple of `2 ^ 32`, and nothing otherwise. -/
theorem get?_of_removals [AlphaHost ε] {steps : List (Step ε)} (hr : Run r steps r')
    (hs : r.arena.get? h = some s) :
    r'.arena.get? h =
      if 2 ^ 32 ∣ r.removals h.index steps then r'.arena.occupant? h.index else none := by
  obtain ⟨e, he, hgen, _⟩ := Arena.get?_eq_some_iff.mp hs
  obtain ⟨e', he', hgen'⟩ := run_entry hr he
  have hsame : e'.generation = h.generation ↔ 2 ^ 32 ∣ r.removals h.index steps := by
    rw [hgen', hgen, ← ofNat_eq_zero_iff]
    simp
  rw [occupant?_of_entry he', Arena.get?, Arena.entry?, he', Option.filter_some]
  by_cases hwrap : 2 ^ 32 ∣ r.removals h.index steps
  · rw [if_pos hwrap, if_pos (beq_iff_eq.mpr (hsame.mpr hwrap)), Option.bind_some]
  · rw [if_neg hwrap, if_neg fun heq => hwrap (hsame.mp (eq_of_beq heq)), Option.bind_none]

/-- A stale handle reaches no newer estimator until the generations have come
round.  Let a call give out the handle `h`, and let `n` be the number of removals
from the entry of `h` in the run that follows, the removal of the estimator that
`h` was given out for being the first of them.

1. As long as there is none, `h` reaches the slot that was registered, and no other
   handle reaches it or anything else in that entry.
2. From then on `h` reaches something exactly if the entry is occupied and `n` is a
   multiple of `2 ^ 32`.
3. So with fewer than `2 ^ 32` removals every call on `h` is refused and changes
   nothing.
4. After `2 ^ 32` removals `h` reaches the new occupant, if there is one. -/
theorem stale_until_generations_wrap [AlphaHost ε] {before after : List (Step ε)}
    {r₀ r₁ : Registry ε} {call : Call ε} (hbefore : Run .empty before r₀)
    (hissued : r₀.perform call = (.ok (.handle h), r₁)) (hafter : Run r₁ after r) :
    let n := r₁.removals h.index after
    (n = 0 → ∃ s, r.arena.get? h = some s ∧ call.names? = some s.key ∧
      ∀ g t, r.arena.get? g = some t → g.index = h.index ∨ t.key = s.key → g = h) ∧
    (0 < n → (r.arena.isLive h = true ↔
      (r.arena.occupant? h.index).isSome = true ∧ 2 ^ 32 ∣ n)) ∧
    (0 < n → n < 2 ^ 32 → r.Refuses h ∧ (staleError h).code = .notFound) ∧
    (n = 2 ^ 32 → ∀ s, r.arena.occupant? h.index = some s → r.arena.get? h = some s) := by
  intro n
  have wf₀ : r₀.WellFormed := (empty_logged.run hbefore).wellFormed
  have wf₁ : r₁.WellFormed := perform_wellFormed wf₀ hissued
  have wf : r.WellFormed := ((empty_logged.run hbefore).perform hissued |>.run hafter).wellFormed
  obtain ⟨s₁, hcell, hnames⟩ := cell?_of_issued wf₀ hissued
  have hs₁ : r₁.arena.get? h = some s₁ := (cell?_eq_some_iff.mp hcell).1
  have hreach : r.arena.get? h = if 2 ^ 32 ∣ n then r.arena.occupant? h.index else none :=
    get?_of_removals hafter hs₁
  refine ⟨?_, ?_, ?_, ?_⟩
  · intro hnone
    obtain ⟨s, hs, hkey⟩ := run_live wf₁ hafter hs₁ hnone
    refine ⟨s, hs, hnames.trans (congrArg some hkey.symm), ?_⟩
    intro g t hg hsame
    rcases hsame with hindex | hkeys
    · exact Arena.eq_of_index_eq hg hs hindex
    · exact wf.arena.eq_of_key_eq hg hs hkeys
  · intro _
    rw [Arena.isLive, hreach]
    by_cases hwrap : 2 ^ 32 ∣ n
    · rw [if_pos hwrap, and_iff_left hwrap]
    · rw [if_neg hwrap]
      exact iff_of_false Bool.false_ne_true fun hboth => hwrap hboth.2
  · intro hpos hlt
    have hwrap : ¬ 2 ^ 32 ∣ n := fun hdvd => absurd (Nat.le_of_dvd hpos hdvd) (Nat.not_le_of_lt hlt)
    rw [if_neg hwrap] at hreach
    exact ⟨refuses_of_get? hreach, rfl⟩
  · intro hwrap s hs
    rw [hreach, if_pos (hwrap ▸ Nat.dvd_refl _), hs]

/-! ### A run in which the generations come round -/

theorem Run.append [AlphaHost ε] {r'' : Registry ε} {steps more : List (Step ε)}
    (h₁ : Run r steps r') (h₂ : Run r' more r'') : Run r (steps ++ more) r'' := by
  induction h₁ with
  | nil => exact h₂
  | cons allowed performed _ ih => exact .cons allowed performed (ih h₂)

theorem removals_append [AlphaHost ε] {steps : List (Step ε)} (more : List (Step ε))
    (hr : Run r steps r') (index : UInt32) :
    r.removals index (steps ++ more) = r.removals index steps + r'.removals index more := by
  induction hr with
  | nil => simp [removals]
  | @cons r r₁ r₂ c a rest _ performed _ ih =>
      simp only [List.cons_append, removals, performed, ih, Nat.add_assoc]

/-- A registration succeeds if the names are free, the estimator answers for its
slot and there is an entry. -/
theorem perform_registerEstimator [AlphaHost ε] {arena : Arena ε}
    (hnew : r.arena.byKey.contains s.key = false)
    (hslot : Slot.of s.alphaId s.instrumentId s.estimator = .ok s)
    (hinsert : r.arena.insert s = .ok (h, arena)) :
    r.perform (.registerEstimator s.alphaId s.instrumentId s.estimator) =
      (.ok (.handle h), { r with arena }) := by
  have hkind : ∃ kind, Estimator.kind s.estimator = .ok kind := by
    unfold Slot.of at hslot
    obtain ⟨_, _, hslot⟩ := bind_eq_ok_iff.mp hslot
    obtain ⟨kind, hkind, _⟩ := bind_eq_ok_iff.mp hslot
    exact ⟨kind, hkind⟩
  obtain ⟨kind, hkind⟩ := hkind
  rw [Slot.key] at hnew
  simp only [perform, registerEstimator, hnew, hslot, hkind, bind, Except.bind, mapError_ok,
    hinsert]
  rfl

/-- The registration of one estimator. -/
def enlist : Call Alpha := .registerEstimator ⟨"a"⟩ ⟨"X"⟩ (.ofi (.start 1 .manual))

/-- The slot it gives. -/
def enlisted : Slot Alpha where
  alphaId := ⟨"a"⟩
  instrumentId := ⟨"X"⟩
  kind := .ofi
  requiredFields := [.bidPrice, .bidSize, .askPrice, .askSize]
  estimator := .ofi (.start 1 .manual)
  disabled := false

/-- A registry whose only entry holds this slot in the given generation. -/
structure Sole (r : Registry Alpha) (generation : UInt32) : Prop where
  wellFormed : r.WellFormed
  entries : r.arena.entries = #[⟨generation, some enlisted⟩]
  free : r.arena.free = []

/-- An estimator that is registered while no handle reaches anything takes the entry
that is allocated. -/
theorem perform_enlist {r : Registry Alpha} {mid : Arena Alpha} {generation : UInt32}
    (wf : r.WellFormed) (hstale : ∀ g, r.arena.get? g = none)
    (ha : r.arena.allocate = .ok (0, mid)) (hentries : mid.entries = #[⟨generation, none⟩])
    (hfree : mid.free = []) :
    ∃ r', r.perform enlist = (.ok (.handle ⟨0, generation⟩), r') ∧ r'.Sole generation := by
  have hnew : r.arena.byKey.contains ⟨⟨"a"⟩, ⟨"X"⟩⟩ = false := by
    rw [Bool.eq_false_iff]
    intro hcontains
    have hmem := Std.ExtHashMap.mem_iff_contains.mpr hcontains
    obtain ⟨g, hg⟩ := Option.isSome_iff_exists.mp (Std.ExtHashMap.mem_iff_isSome_getElem?.mp hmem)
    obtain ⟨s, hs, _⟩ := (wf.arena.byKey_iff _ g).mp hg
    rw [hstale g] at hs
    cases hs
  have hinsert : r.arena.insert enlisted =
      .ok (⟨0, generation⟩, (mid.occupy 0 enlisted).link ⟨0, generation⟩ enlisted.key) := by
    unfold Arena.insert
    rw [ha]
    simp only [bind, Except.bind, hentries]
    rfl
  have hp := perform_registerEstimator hnew rfl hinsert
  refine ⟨_, hp, perform_wellFormed wf hp, ?_, hfree⟩
  simp only [Arena.link, Arena.occupy, hentries]
  rfl

theorem Sole.get? {r : Registry Alpha} {generation : UInt32} (hsole : r.Sole generation) :
    r.arena.get? ⟨0, generation⟩ = some enlisted := by
  rw [Arena.get?_eq_some_iff, hsole.entries]
  exact ⟨_, rfl, rfl, rfl⟩

theorem Sole.occupant? {r : Registry Alpha} {generation : UInt32} (hsole : r.Sole generation) :
    r.arena.occupant? 0 = some enlisted := by
  rw [Arena.occupant?, hsole.entries]
  rfl

/-- The first registration. -/
theorem exists_sole : ∃ r, (empty : Registry Alpha).perform enlist = (.ok (.handle ⟨0, 0⟩), r) ∧
    r.Sole 0 := by
  have hstale : ∀ g, (empty : Registry Alpha).arena.get? g = none := Arena.get?_empty
  exact perform_enlist empty_logged.wellFormed hstale rfl rfl rfl

/-- Removing the only estimator and registering one again moves the generation on. -/
theorem Sole.cycle {r : Registry Alpha} {generation : UInt32} (hsole : r.Sole generation) :
    ∃ steps r', Run r steps r' ∧ r.removals 0 steps = 1 ∧ r'.Sole (generation + 1) := by
  obtain ⟨r₁, hp, hentries, hfree⟩ : ∃ r₁,
      r.perform (.deregister ⟨0, generation⟩) = (.ok .done, r₁) ∧
        r₁.arena.entries = #[⟨generation + 1, none⟩] ∧ r₁.arena.free = [0] := by
    simp only [perform, Registry.deregister, Arena.remove?, hsole.get?]
    refine ⟨_, rfl, ?_, ?_⟩
    · simp only [Arena.unlink, Arena.vacate, hsole.entries]
      rfl
    · simp only [Arena.unlink, Arena.vacate, hsole.free]
  have wf₁ : r₁.WellFormed := perform_wellFormed hsole.wellFormed hp
  have hempty : r₁.arena.occupant? 0 = none := by
    rw [Arena.occupant?, hentries]
    rfl
  have hstale : ∀ g, r₁.arena.get? g = none := by
    intro g
    cases hg : r₁.arena.get? g with
    | none => rfl
    | some t =>
        obtain ⟨e, he, _, hslot⟩ := Arena.get?_eq_some_iff.mp hg
        rw [hentries] at he
        have heq := Array.mem_singleton.mp (Array.mem_of_getElem? he)
        rw [heq] at hslot
        cases hslot
  have hallocate : r₁.arena.allocate = .ok (0, { r₁.arena with free := [] }) := by
    rw [Arena.allocate, hfree]
  obtain ⟨r₂, hp₂, hsole₂⟩ := perform_enlist wf₁ hstale hallocate hentries rfl
  refine ⟨[⟨.deregister ⟨0, generation⟩, .ok .done⟩, ⟨enlist, .ok (.handle ⟨0, generation + 1⟩)⟩],
    r₂, .cons trivial hp (.cons trivial hp₂ (.nil r₂)), ?_, hsole₂⟩
  simp [removals, hp, hp₂, vacates, hsole.occupant?, hempty]

/-- Any number of removals can follow the first registration. -/
theorem Sole.cycles {r : Registry Alpha} {generation : UInt32} (hsole : r.Sole generation)
    (m : Nat) : ∃ steps r', Run r steps r' ∧ r.removals 0 steps = m ∧
      r'.Sole (generation + UInt32.ofNat m) := by
  induction m with
  | zero => exact ⟨[], r, .nil r, rfl, by simpa using hsole⟩
  | succ m ih =>
      obtain ⟨steps, r₁, hr, hcount, hsole₁⟩ := ih
      obtain ⟨more, r₂, hr₂, hone, hsole₂⟩ := hsole₁.cycle
      refine ⟨steps ++ more, r₂, hr.append hr₂, ?_, ?_⟩
      · rw [removals_append more hr, hcount, hone]
      · rwa [UInt32.ofNat_add, ← UInt32.add_assoc]

theorem stale_until_generations_wrap_cycle :
    ∃ r₁ : Registry Alpha, (empty : Registry Alpha).perform enlist = (.ok (.handle ⟨0, 0⟩), r₁) ∧
      (∃ steps r, Run r₁ steps r ∧ r₁.removals 0 steps = 2 ^ 32 - 1 ∧ r.Refuses ⟨0, 0⟩) ∧
      ∃ steps r, Run r₁ steps r ∧ r₁.removals 0 steps = 2 ^ 32 ∧
        r.arena.get? ⟨0, 0⟩ = some enlisted := by
  obtain ⟨r₁, hissued, hsole⟩ := exists_sole
  refine ⟨r₁, hissued, ?_, ?_⟩
  · obtain ⟨steps, r, hr, hcount, _⟩ := hsole.cycles (2 ^ 32 - 1)
    have hwrap := (stale_until_generations_wrap (.nil _) hissued hr).2.2.1
    rw [hcount] at hwrap
    exact ⟨steps, r, hr, hcount, (hwrap (by decide) (by decide)).1⟩
  · obtain ⟨steps, r, hr, hcount, hlast⟩ := hsole.cycles (2 ^ 32)
    have hwrap := (stale_until_generations_wrap (.nil _) hissued hr).2.2.2
    exact ⟨steps, r, hr, hcount, hwrap hcount enlisted hlast.occupant?⟩

end Registry

end MarketSignals
