import MarketSignals.Proofs.Registry.Changes

/-!
# One registration

A cell is what a registry keeps for one registration: the slot and the last
output.  An estimator that makes no request of the registry acts on its own cell
only, and so do all calls on it.

## Main definitions

* `Cell`, `Registry.cell?`, `Registry.put` — reading and writing one registration.
* `Solitary` — types of estimators that make no request of the registry.
* `Touch`, `Cell.act` — the calls on one estimator, and what they do to its cell.

## Main results

* `put_self`, `put_put`, `put_comm`, `cell?_put` — the laws of reading and writing.
* `run_eq` — running a slot writes its cell.
* `perform_touch` — a call on one estimator writes its cell.
-/

namespace MarketSignals

variable {ε : Type}

/-! ## Estimators that keep to themselves -/

namespace Interaction

/-- No request is made of the registry. -/
def IsSolitary : Interaction ε → Prop
  | done _ _ => True
  | deregister _ _ _ => False
  | cancelBatch rest => rest.IsSolitary

/-- The end of an update, requests being granted. -/
def outcome : Interaction ε → Except Fault SignalReading × ε
  | done result state => (result, state)
  | deregister _ _ resume => (resume (.ok ())).outcome
  | cancelBatch rest => rest.outcome

end Interaction

/-- Estimators that make no request of the registry, whatever they do otherwise. -/
class Solitary (ε : Type) [Estimator ε] : Prop where
  isSolitary : ∀ (e : ε) (event : MarketEvent), (Estimator.update e event).IsSolitary

instance : Solitary Alpha := ⟨fun _ _ => trivial⟩

theorem Interaction.isSolitary_map {δ : Type} (f : ε → δ) {i : Interaction ε}
    (hi : i.IsSolitary) : (i.map f).IsSolitary := by
  induction i with
  | done => trivial
  | deregister => exact hi.elim
  | cancelBatch rest ih => exact ih hi

instance {η : Type} [Estimator η] [Solitary η] : Solitary (Alpha ⊕ η) where
  isSolitary
    | .inl a, event => Interaction.isSolitary_map _ (Solitary.isSolitary a event)
    | .inr h, event => Interaction.isSolitary_map _ (Solitary.isSolitary h event)

/-! ## Cells -/

/-- What a registry keeps for one registration. -/
structure Cell (ε : Type) where
  slot : Slot ε
  latest : Option SignalOutput

namespace Registry

variable {r r' : Registry ε} {g h : Handle} {c d : Cell ε}

/-- The cell that a handle reaches. -/
def cell? (r : Registry ε) (h : Handle) : Option (Cell ε) :=
  (r.arena.get? h).map fun slot => ⟨slot, r.latest[h]?⟩

/-- The registry with a cell put where a handle points to. -/
def put (r : Registry ε) (h : Handle) (c : Cell ε) : Registry ε :=
  ⟨r.arena.store h c.slot, r.latest.alter h fun _ => c.latest⟩

theorem cell?_eq_some_iff :
    r.cell? h = some c ↔ r.arena.get? h = some c.slot ∧ r.latest[h]? = c.latest := by
  unfold cell?
  rw [Option.map_eq_some_iff]
  constructor
  · rintro ⟨s, hs, rfl⟩
    exact ⟨hs, rfl⟩
  · rintro ⟨hs, hl⟩
    exact ⟨c.slot, hs, by rw [hl]⟩

/-- The cell that goes with a slot. -/
theorem cell?_of_get? {s : Slot ε} (hs : r.arena.get? h = some s) :
    r.cell? h = some ⟨s, r.latest[h]?⟩ :=
  cell?_eq_some_iff.mpr ⟨hs, rfl⟩

theorem cell?_put (hc : r.cell? h = some d) (c : Cell ε) (g : Handle) :
    (r.put h c).cell? g = if g = h then some c else r.cell? g := by
  have hlive : r.arena.isLive h = true := Arena.isLive_iff.mpr ⟨_, (cell?_eq_some_iff.mp hc).1⟩
  unfold cell? put
  rw [Arena.get?_store]
  simp only [hlive, and_true, Std.ExtHashMap.getElem?_alter, beq_iff_eq]
  by_cases hgh : g = h
  · simp [hgh]
  · simp [hgh, Ne.symm hgh]

@[simp] theorem handlesOn_put (r : Registry ε) (h : Handle) (c : Cell ε) (i : InstrumentId) :
    (r.put h c).handlesOn i = r.handlesOn i := by
  simp [Registry.handlesOn, put, Arena.handlesOn]

/-- Writing the output that is there changes no output. -/
theorem alter_latest_self (hc : r.cell? h = some c) :
    (r.latest.alter h fun _ => c.latest) = r.latest := by
  obtain ⟨_, hl⟩ := cell?_eq_some_iff.mp hc
  apply Std.ExtHashMap.ext_getElem?
  intro k
  rw [Std.ExtHashMap.getElem?_alter]
  split
  · next hk => rw [← eq_of_beq hk, hl]
  · rfl

theorem put_self (hc : r.cell? h = some c) : r.put h c = r := by
  unfold put
  rw [Arena.store_self (cell?_eq_some_iff.mp hc).1, alter_latest_self hc]

theorem put_put (r : Registry ε) (h : Handle) (c d : Cell ε) :
    (r.put h c).put h d = r.put h d := by
  unfold put
  simp only [Arena.store_store, mk.injEq, true_and]
  apply Std.ExtHashMap.ext_getElem?
  intro k
  simp only [Std.ExtHashMap.getElem?_alter]
  split <;> rfl

theorem put_comm (r : Registry ε) (hne : g ≠ h) (c d : Cell ε) :
    (r.put g c).put h d = (r.put h d).put g c := by
  unfold put
  rw [Arena.store_comm _ hne]
  simp only [mk.injEq, true_and]
  apply Std.ExtHashMap.ext_getElem?
  intro k
  simp only [Std.ExtHashMap.getElem?_alter, beq_iff_eq]
  by_cases hk : g = k
  · subst hk
    simp [Ne.symm hne]
  · simp [hk]

/-- Replacing the slot of a cell leaves the output alone. -/
theorem store_eq_put (hc : r.cell? h = some c) (s : Slot ε) :
    r.store h s = r.put h { c with slot := s } := by
  unfold Registry.store put
  rw [alter_latest_self hc]

/-- Replacing a slot and keeping an output is writing both. -/
theorem insert_eq_put (r : Registry ε) (h : Handle) (s : Slot ε) (o : SignalOutput) :
    ⟨(r.store h s).arena, (r.store h s).latest.insert h o⟩ = r.put h ⟨s, some o⟩ := by
  unfold Registry.store put
  simp only [mk.injEq, true_and]
  apply Std.ExtHashMap.ext_getElem?
  intro k
  rw [Std.ExtHashMap.getElem?_alter, Std.ExtHashMap.getElem?_insert]

/-- Replacing a slot and forgetting its output is writing both. -/
theorem erase_eq_put (r : Registry ε) (h : Handle) (s : Slot ε) :
    ⟨(r.store h s).arena, r.latest.erase h⟩ = r.put h ⟨s, none⟩ := by
  unfold Registry.store put
  simp only [mk.injEq, true_and]
  apply Std.ExtHashMap.ext_getElem?
  intro k
  rw [Std.ExtHashMap.getElem?_alter, Std.ExtHashMap.getElem?_erase]

end Registry

/-! ## Calls on one estimator -/

/-- A call on the estimator of a cell. -/
inductive Touch where
  | update (event : MarketEvent)
  | reset
  | rebase
  | referenceBinning
  | installReference (counts : List Nat)
  | latest

/-- The call on the estimator that a handle points to. -/
def Touch.on (h : Handle) : Touch → Registry.Call ε
  | .update event => .update h event
  | .reset => .reset h
  | .rebase => .rebase h
  | .referenceBinning => .referenceBinning h
  | .installReference counts => .installReference h counts
  | .latest => .latest h

namespace Cell

variable [Estimator ε]

/-- Feeds an event to the estimator of a cell. -/
def feed (c : Cell ε) (event : MarketEvent) : Except EngineError SignalOutput × Cell ε :=
  if c.slot.disabled then (.error c.slot.disabledError, c)
  else
    match c.slot.absorb (Estimator.update c.slot.estimator event).outcome with
    | (.error error, slot) => (.error error, { c with slot })
    | (.ok reading, slot) =>
        let output := SignalOutput.ofReading slot.alphaId slot.instrumentId event.timestamp reading
        (.ok output, ⟨slot, some output⟩)

/-- Feeds an event to one estimator, which must be on its instrument and take
events of its kind. -/
def update (c : Cell ε) (event : MarketEvent) : Except EngineError SignalOutput × Cell ε :=
  if event.instrumentId ≠ c.slot.instrumentId then
    (.error (Registry.wrongInstrumentError event.instrumentId c.slot.instrumentId), c)
  else if !c.slot.accepts event then (.error (Registry.noTradeError c.slot), c)
  else c.feed event

/-- Resets the estimator of a cell. -/
def reset (c : Cell ε) : Except EngineError Unit × Cell ε :=
  match c.slot.reset with
  | (.ok (), slot) => (.ok (), ⟨slot, none⟩)
  | (.error error, slot) => (.error error, { c with slot })

/-- Calls the estimator of a cell through its slot. -/
def through {β : Type} (c : Cell ε) (call : ε → Except Fault β × ε) :
    Except EngineError β × Cell ε :=
  (c.slot.guarded call).map id fun slot => { c with slot }

/-- The bins of an estimator's reference. -/
def binningOf (estimator : ε) : Except Fault Binning × ε :=
  match Estimator.referenceBinning estimator with
  | .ok (some b) => (.ok b, estimator)
  | .ok none => (.error (Estimator.noReference (Estimator.kind estimator)), estimator)
  | .error panic => (.error (.panicked panic), estimator)

/-- The answer to a call on the estimator of a cell, and the cell it leaves. -/
def act (c : Cell ε) : Touch → Registry.Answer × Cell ε
  | .update event => (c.update event).map (Registry.answer .output) id
  | .reset => c.reset.map (Registry.answer fun _ => .done) id
  | .rebase => (c.through Estimator.rebase).map (Registry.answer fun _ => .done) id
  | .referenceBinning => (c.through binningOf).map (Registry.answer .binning) id
  | .installReference counts =>
      (c.through (Estimator.installReference · counts)).map (Registry.answer fun _ => .done) id
  | .latest => (.ok (.latest c.latest), c)

/-- Feeds an event to the estimator of a cell, unless it does not take events of
its kind. -/
def offer (c : Cell ε) (event : MarketEvent) : Option (Except EngineError SignalOutput) × Cell ε :=
  if c.slot.accepts event then (c.feed event).map some id else (none, c)

/-! Names stay with a cell. -/

/-- The slot that an event leaves in a cell. -/
theorem slot_feed (c : Cell ε) (event : MarketEvent) :
    (c.feed event).2.slot = if c.slot.disabled then c.slot
      else (c.slot.absorb (Estimator.update c.slot.estimator event).outcome).2 := by
  unfold feed
  split
  · rfl
  · split
    · next heq => rw [heq]
    · next heq => rw [heq]

@[simp] theorem key_feed (c : Cell ε) (event : MarketEvent) :
    (c.feed event).2.slot.key = c.slot.key := by
  rw [slot_feed]
  split
  · rfl
  · exact Registry.key_absorb c.slot _

@[simp] theorem key_offer (c : Cell ε) (event : MarketEvent) :
    (c.offer event).2.slot.key = c.slot.key := by
  unfold offer
  split
  · exact key_feed c event
  · rfl

@[simp] theorem key_act (c : Cell ε) (t : Touch) : (c.act t).2.slot.key = c.slot.key := by
  cases t with
  | update event =>
      show (c.update event).2.slot.key = c.slot.key
      unfold update
      split
      · rfl
      · split
        · rfl
        · exact key_feed c event
  | reset =>
      have hk := Registry.key_reset c.slot
      show c.reset.2.slot.key = c.slot.key
      unfold reset
      split
      · next heq =>
          rw [heq] at hk
          exact hk
      · next heq =>
          rw [heq] at hk
          exact hk
  | rebase => exact Registry.key_guarded c.slot Estimator.rebase
  | referenceBinning => exact Registry.key_guarded c.slot binningOf
  | installReference counts =>
      exact Registry.key_guarded c.slot (Estimator.installReference · counts)
  | latest => rfl

end Cell

namespace Registry

variable {r r' : Registry ε} {g h : Handle} {c d : Cell ε}

theorem converse_of_isSolitary (r : Registry ε) {i : Interaction ε} (hi : i.IsSolitary) :
    ∃ cancelled, r.converse i = ⟨r, cancelled, i.outcome.1, i.outcome.2⟩ := by
  induction i with
  | done result state => exact ⟨false, rfl⟩
  | deregister => exact hi.elim
  | cancelBatch rest ih =>
      obtain ⟨cancelled, heq⟩ := ih hi
      exact ⟨true, by simp only [converse, heq, Interaction.outcome]⟩

/-- Running the slot of a cell writes the cell and nothing else. -/
theorem run_eq [Estimator ε] [Solitary ε] (hc : r.cell? h = some c) (event : MarketEvent) :
    (r.run h c.slot event).result = (c.feed event).1 ∧
      (r.run h c.slot event).registry = r.put h (c.feed event).2 := by
  unfold run Cell.feed
  split
  · exact ⟨rfl, (put_self hc).symm⟩
  · obtain ⟨cancelled, heq⟩ := converse_of_isSolitary r
      (Solitary.isSolitary c.slot.estimator event)
    simp only [heq, Prod.eta]
    cases hab : c.slot.absorb (Estimator.update c.slot.estimator event).outcome with
    | mk result slot =>
        cases result with
        | error error => exact ⟨rfl, store_eq_put hc slot⟩
        | ok reading =>
            refine ⟨rfl, ?_⟩
            have hlive : (r.store h slot).arena.isLive h = true := by
              rw [Registry.store, Arena.isLive_store]
              exact Arena.isLive_iff.mpr ⟨_, (cell?_eq_some_iff.mp hc).1⟩
            simp only [publish, if_pos hlive]
            exact insert_eq_put r h slot _

theorem slot_of_cell (hc : r.cell? h = some c) : r.slot h = .ok c.slot :=
  slot_eq_ok_iff.mpr (cell?_eq_some_iff.mp hc).1

theorem slot_of_no_cell (hc : r.cell? h = none) : r.slot h = .error (staleError h) := by
  have hnone : r.arena.get? h = none := by simpa [cell?] using hc
  unfold slot
  rw [hnone]

theorem callSlot_eq (hc : r.cell? h = some c) {β : Type} (call : ε → Except Fault β × ε) :
    r.callSlot h call = ((c.through call).1, r.put h (c.through call).2) := by
  unfold callSlot
  rw [slot_of_cell hc]
  simp only [store_eq_put hc]
  rfl

theorem update_eq [Estimator ε] [Solitary ε] (hc : r.cell? h = some c) (event : MarketEvent) :
    r.update h event = ((c.update event).1, r.put h (c.update event).2) := by
  unfold Registry.update Cell.update
  rw [slot_of_cell hc]
  simp only
  split
  · rw [put_self hc]
  · split
    · rw [put_self hc]
    · obtain ⟨hresult, hregistry⟩ := run_eq hc event
      rw [hresult, hregistry]

theorem reset_eq [Estimator ε] (hc : r.cell? h = some c) :
    r.reset h = (c.reset.1, r.put h c.reset.2) := by
  unfold Registry.reset Cell.reset
  rw [slot_of_cell hc]
  cases hs : c.slot.reset with
  | mk result slot =>
      cases result with
      | ok u =>
          simp only [hs]
          exact congrArg (Prod.mk _) (erase_eq_put r h slot)
      | error error =>
          simp only [hs]
          exact congrArg (Prod.mk _) (store_eq_put hc slot)

/-- A call on one estimator that feeds it no event answers from its cell and writes
its cell, also where estimators make requests. -/
theorem perform_touch_of_ne_update [AlphaHost ε] (hc : r.cell? h = some c) {t : Touch}
    (ht : ∀ event, t ≠ .update event) :
    r.perform (t.on h) = ((c.act t).1, r.put h (c.act t).2) := by
  cases t with
  | update event => exact absurd rfl (ht event)
  | reset =>
      show (r.reset h).map _ _ = _
      rw [reset_eq hc]
      rfl
  | rebase =>
      show (r.callSlot h _).map _ _ = _
      rw [callSlot_eq hc]
      rfl
  | referenceBinning =>
      show (r.callSlot h Cell.binningOf).map _ _ = _
      rw [callSlot_eq hc]
      rfl
  | installReference counts =>
      show (r.callSlot h (Estimator.installReference · counts)).map _ _ = _
      rw [callSlot_eq hc]
      rfl
  | latest =>
      show (answer _ (r.latestOf h), r) = _
      unfold latestOf
      rw [slot_of_cell hc]
      simp only [Cell.act, put_self hc, Except.map, answer, (cell?_eq_some_iff.mp hc).2]

/-- A call on one estimator answers from its cell and writes its cell. -/
theorem perform_touch [AlphaHost ε] [Solitary ε] (hc : r.cell? h = some c) (t : Touch) :
    r.perform (t.on h) = ((c.act t).1, r.put h (c.act t).2) := by
  cases t with
  | update event =>
      show (r.update h event).map _ _ = _
      rw [update_eq hc]
      rfl
  | _ => exact perform_touch_of_ne_update hc fun _ heq => by cases heq

/-- A call through a stale handle is refused and changes nothing. -/
theorem perform_touch_stale [AlphaHost ε] (hc : r.cell? h = none) (t : Touch) :
    r.perform (t.on h) = (.error (.refused (staleError h)), r) := by
  have hslot := slot_of_no_cell hc
  cases t with
  | update event =>
      show (r.update h event).map _ _ = _
      unfold Registry.update
      rw [hslot]
      rfl
  | reset =>
      show (r.reset h).map _ _ = _
      unfold Registry.reset
      rw [hslot]
      rfl
  | rebase =>
      show (r.callSlot h _).map _ _ = _
      unfold callSlot
      rw [hslot]
      rfl
  | referenceBinning =>
      show (r.callSlot h Cell.binningOf).map _ _ = _
      unfold callSlot
      rw [hslot]
      rfl
  | installReference counts =>
      show (r.callSlot h (Estimator.installReference · counts)).map _ _ = _
      unfold callSlot
      rw [hslot]
      rfl
  | latest =>
      show (answer _ (r.latestOf h), r) = _
      unfold latestOf
      rw [hslot]
      rfl

end Registry

end MarketSignals
