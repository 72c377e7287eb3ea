import MarketSignals.Proofs.Alpha.Fields
import MarketSignals.Proofs.Batch.Rows
import MarketSignals.Proofs.Registry.Sequence

/-!
# The fields that a registration reads

A registration of the engine's estimators, wherever it is, sees of its events what it has
declared.  Where two registrations of the same settings are called in the same way and
given events that agree on the declared fields, they give the same results, errors
included, and become the same, but for the times that stand on their outputs.

What is declared is there: an event that a slot accepts has every field, and a batch that
passes the check has a column for each.  So no failure is ever for the want of a field.

## Main definitions

* `Result.unstamped` — what a registration gives, without the times of outputs.
* `Cell.Alike` — cells that differ in the time of their output at most.
* `Concern.Alike` — the same call, or events that an estimator sees alike.

## Main results

* `Cell.respond_alike` — one thing that concerns a registration.
* `Registry.Tenure.observed_alike` — all of them, for two registrations.
* `Registry.exists_row_of_failure` — where the failures of a batch come from.
-/

namespace MarketSignals

/-! ## Outputs without their times -/

/-- An output without the time of its event. -/
def SignalOutput.unstamped (o : SignalOutput) : SignalOutput := { o with timestamp := ⟨0⟩ }

/-- A reply without the times of its outputs. -/
def Registry.Reply.unstamped : Registry.Reply → Registry.Reply
  | .output o => .output o.unstamped
  | .report d => .report { d with outputs := d.outputs.map (·.unstamped) }
  | .latest o? => .latest (o?.map (·.unstamped))
  | reply => reply

/-- What a registration gives, without the times of its outputs. -/
def Result.unstamped : Result → Result
  | .answer a => .answer (a.map (·.unstamped))
  | .part p => .part (p.map (·.map (·.unstamped)))

/-- Two cells differ in the time of their output at most. -/
structure Cell.Alike {ε : Type} (c d : Cell ε) : Prop where
  slot : c.slot = d.slot
  latest : c.latest.map (·.unstamped) = d.latest.map (·.unstamped)

theorem Cell.Alike.refl {ε : Type} (c : Cell ε) : c.Alike c := ⟨rfl, rfl⟩

/-- Two things that concern a registration: the same call, or events that an estimator
sees alike. -/
inductive Concern.Alike (a : Alpha) : Concern → Concern → Prop
  | call (t : Touch) (ht : ∀ event, t ≠ .update event) : Alike a (.touch t) (.touch t)
  | update {event event' : MarketEvent} (sameInstrument : event.instrumentId = event'.instrumentId)
      (sees : a.SeesAlike event event') : Alike a (.touch (.update event)) (.touch (.update event'))
  | event {event event' : MarketEvent} (sees : a.SeesAlike event event') :
      Alike a (.event event) (.event event')

/-! ## One cell -/

/-- A slot accepts the events that have every field it declares. -/
theorem Slot.accepts_iff {ε : Type} {s : Slot ε} {event : MarketEvent} :
    s.accepts event = true ↔ ∀ field ∈ s.requiredFields, (event.field? field).isSome = true := by
  simp only [MarketEvent.isSome_field?_iff, accepts, needsTrade, Bool.or_eq_true,
    Bool.not_eq_true', List.any_eq_false]
  constructor
  · rintro (hnone | htrade) field hm hof
    · exact absurd hof (hnone field hm)
    · exact htrade
  · intro hall
    by_cases htrade : event.isTrade = true
    · exact .inr htrade
    · exact .inl fun field hm hof => htrade (hall field hm hof)

namespace Cell

variable {c d : Cell Alpha} {fresh : Alpha} {event event' : MarketEvent} {k k' : Concern}

/-- A cell declares what the estimator in it was built to read. -/
structure Declares (fresh : Alpha) (c : Cell Alpha) : Prop where
  grownFrom : Alpha.GrownFrom fresh c.slot.estimator
  fields : c.slot.requiredFields = fresh.requiredFields

theorem declares_freshCell {config : AlphaConfig} (hb : config.build = .ok fresh) (k : SlotKey) :
    (freshCell k fresh).Declares fresh :=
  ⟨Alpha.grownFrom_of_build hb, rfl⟩

theorem Declares.respond (h : c.Declares fresh) (k : Concern) : (c.respond k).2.Declares fresh :=
  ⟨closed_respond (Alpha.closed_grownFrom fresh) h.grownFrom k,
    (congrArg SlotInfo.requiredFields (info_respond c k ⟨0, 0⟩)).trans h.fields⟩

/-- Whether an event is taken is seen by its declared fields. -/
theorem Declares.accepts_congr (h : c.Declares fresh) (hsees : fresh.SeesAlike event event') :
    c.slot.accepts event = c.slot.accepts event' := by
  rw [Bool.eq_iff_iff, Slot.accepts_iff, Slot.accepts_iff, h.fields]
  constructor
  · intro hall field hm
    rw [← hsees.fields field hm]
    exact hall field hm
  · intro hall field hm
    rw [hsees.fields field hm]
    exact hall field hm

/-- Events with the same outcome leave the same, but for the times. -/
theorem feed_alike (hcd : c.Alike d)
    (hupdate : c.slot.estimator.update event = c.slot.estimator.update event') :
    (c.feed event).1.map (·.unstamped) = (d.feed event').1.map (·.unstamped) ∧
      (c.feed event).2.Alike (d.feed event').2 := by
  obtain ⟨s, latest⟩ := c
  obtain ⟨_, latest'⟩ := d
  obtain ⟨rfl, hlatest⟩ := hcd
  unfold feed
  rw [outcome_update, outcome_update, ← hupdate]
  split
  · exact ⟨rfl, rfl, hlatest⟩
  · cases s.absorb (s.estimator.update event) with
    | mk result slot =>
        cases result with
        | error error => exact ⟨rfl, rfl, hlatest⟩
        | ok reading => exact ⟨rfl, rfl, rfl⟩

theorem offer_alike (hc : c.Declares fresh) (hcd : c.Alike d)
    (hsees : fresh.SeesAlike event event') :
    (c.offer event).1.map (·.map (·.unstamped)) = (d.offer event').1.map (·.map (·.unstamped)) ∧
      (c.offer event).2.Alike (d.offer event').2 := by
  obtain ⟨hresult, hleft⟩ := feed_alike hcd (Alpha.update_congr (hc.grownFrom.seesAlike hsees))
  unfold offer
  rw [← hcd.slot, ← hc.accepts_congr hsees]
  split
  · exact ⟨congrArg some hresult, hleft⟩
  · exact ⟨rfl, hcd⟩

theorem update_alike (hc : c.Declares fresh) (hcd : c.Alike d)
    (hi : event.instrumentId = event'.instrumentId) (hsees : fresh.SeesAlike event event') :
    (c.update event).1.map (·.unstamped) = (d.update event').1.map (·.unstamped) ∧
      (c.update event).2.Alike (d.update event').2 := by
  have hfeed := feed_alike hcd (Alpha.update_congr (hc.grownFrom.seesAlike hsees))
  unfold Cell.update
  rw [← hcd.slot, ← hc.accepts_congr hsees, hi]
  split
  · exact ⟨rfl, hcd⟩
  · split
    · exact ⟨rfl, hcd⟩
    · exact hfeed

/-- A call that feeds no event acts on the slot alone. -/
theorem act_alike (hcd : c.Alike d) {t : Touch} (ht : ∀ event, t ≠ .update event) :
    (c.act t).1.map (·.unstamped) = (d.act t).1.map (·.unstamped) ∧
      (c.act t).2.Alike (d.act t).2 := by
  obtain ⟨s, latest⟩ := c
  obtain ⟨_, latest'⟩ := d
  obtain ⟨rfl, hlatest⟩ := hcd
  cases t with
  | update event => exact absurd rfl (ht event)
  | reset => exact ⟨rfl, rfl, rfl⟩
  | rebase => exact ⟨rfl, rfl, hlatest⟩
  | referenceBinning => exact ⟨rfl, rfl, hlatest⟩
  | installReference counts => exact ⟨rfl, rfl, hlatest⟩
  | latest => exact ⟨congrArg (Except.ok ∘ Registry.Reply.latest) hlatest, rfl, hlatest⟩

/-- Cells that are alike give the same for things that are alike, and stay alike. -/
theorem respond_alike (hc : c.Declares fresh) (hcd : c.Alike d) (hk : Concern.Alike fresh k k') :
    (c.respond k).1.unstamped = (d.respond k').1.unstamped ∧
      (c.respond k).2.Alike (d.respond k').2 := by
  cases hk with
  | call t ht =>
      obtain ⟨hanswer, hleft⟩ := act_alike hcd ht
      exact ⟨congrArg Result.answer hanswer, hleft⟩
  | @update event event' hi hsees =>
      obtain ⟨hresult, hleft⟩ := update_alike hc hcd hi hsees
      refine ⟨congrArg Result.answer ?_, hleft⟩
      have hanswer : ∀ result : Except EngineError SignalOutput,
          (Registry.answer .output result).map (·.unstamped) =
            Registry.answer .output (result.map (·.unstamped)) := by
        intro result
        cases result <;> rfl
      show (Registry.answer .output (c.update event).1).map _ =
        (Registry.answer .output (d.update event').1).map _
      rw [hanswer, hanswer, hresult]
  | event hsees =>
      obtain ⟨hpart, hleft⟩ := offer_alike hc hcd hsees
      exact ⟨congrArg Result.part hpart, hleft⟩

/-- One thing after the other. -/
theorem replay_alike {ks ks' : List Concern} (hc : c.Declares fresh) (hcd : c.Alike d)
    (hks : List.Forall₂ (Concern.Alike fresh) ks ks') :
    (c.replay ks).map (·.2.unstamped) = (d.replay ks').map (·.2.unstamped) ∧
      (c.after ks).Alike (d.after ks') := by
  induction hks generalizing c d with
  | nil => exact ⟨rfl, hcd⟩
  | @cons k k' _ _ hk _ ih =>
      obtain ⟨hresult, hleft⟩ := respond_alike hc hcd hk
      obtain ⟨hresults, hlater⟩ := ih (hc.respond k) hleft
      refine ⟨?_, hlater⟩
      simp only [replay, List.map_cons, hresult, hresults]

theorem Alike.host {ε : Type} [AlphaHost ε] (hcd : c.Alike d) :
    (c.host : Cell ε).Alike d.host :=
  ⟨congrArg Slot.host hcd.slot, hcd.latest⟩

end Cell

namespace Registry

/-! ## Two registrations -/

section

variable {ε : Type} [AlphaHost ε] [LawfulAlphaHost ε] {config : AlphaConfig} {fresh : Alpha}
  {k : SlotKey} {h h' : Handle} {steps steps' : List (Step ε)} {r r' : Registry ε}

/-- Two registrations of the same settings that are concerned alike show the same and
become the same, whatever is around them. -/
theorem Tenure.observed_alike (ht : Tenure config k h steps r) (ht' : Tenure config k h' steps' r')
    (hb : config.build = .ok fresh)
    (hks : List.Forall₂ (Concern.Alike fresh) (concerns h k.instrumentId steps)
      (concerns h' k.instrumentId steps')) :
    (observed h k.alphaId k.instrumentId steps).map (·.2.unstamped) =
        (observed h' k.alphaId k.instrumentId steps').map (·.2.unstamped) ∧
      ∀ d d', r.cell? h = some d → r'.cell? h' = some d' → d.Alike d' := by
  obtain ⟨_, hobserved, hleft⟩ := ht.observed_eq hb
  obtain ⟨_, hobserved', hleft'⟩ := ht'.observed_eq hb
  obtain ⟨hresults, halike⟩ := Cell.replay_alike (Cell.declares_freshCell hb k) (.refl _) hks
  refine ⟨by rw [hobserved, hobserved', hresults], ?_⟩
  intro d d' hd hd'
  rw [hleft d hd, hleft' d' hd']
  exact halike.host

end

/-! ## Fields that are there -/

end Registry

theorem Batch.instrumentId_of_mem_events {ε : Type} {b : Batch} {slots : List (Handle × Slot ε)}
    (hsound : ¬ b.Flawed slots) {event : MarketEvent} (hm : event ∈ b.events) :
    event.instrumentId = b.instrumentId := by
  obtain ⟨row, hrow⟩ := List.mem_iff_getElem?.mp hm
  exact ((lists_events hsound).2 row event hrow).instrumentId

/-- A batch that is not flawed has a column for every field that is declared. -/
theorem Batch.hasField_of_not_flawed {ε : Type} {b : Batch} {slots : List (Handle × Slot ε)}
    (hsound : ¬ b.Flawed slots) {h : Handle} {s : Slot ε} (registered : (h, s) ∈ slots)
    {field : EventField} (hm : field ∈ s.requiredFields) : b.hasField field = true := by
  have hpair := trades_paired hsound
  cases htrade : field.ofTrade with
  | false => exact hasField_of_not_ofTrade htrade
  | true =>
      have hneeds : s.needsTrade = true := List.any_eq_true.mpr ⟨field, hm, htrade⟩
      rw [hasField_of_ofTrade hpair htrade]
      cases hprice : b.tradePrice with
      | some prices => rfl
      | none =>
          have hsize : b.tradeSize = none := by simpa [hprice] using hpair.symm
          exact absurd (.noTrades registered hneeds hprice hsize) hsound

/-- An error for the want of a trade is told from all others by what a host sees. -/
theorem HostError.eq_of_missesTrade {error error' : EngineError} (hm : MissesTrade error)
    (heq : ofEngine error' = ofEngine error) : error' = error := by
  obtain ⟨reason, _, _, rfl, _⟩ := hm.ends
  have hcode : error'.code = .invalidInput := congrArg HostError.code heq
  have hmessage := congrArg HostError.message heq
  cases error' with
  | invalidInput reason' =>
      have happend : "Invalid input: " ++ reason' = "Invalid input: " ++ reason := hmessage
      rw [(String.append_right_inj _).mp happend]
  | _ => cases hcode

namespace Registry

variable {ε : Type} {r r' : Registry ε} {h : Handle} {event : MarketEvent}

section

variable [Estimator ε]

/-- A failure in a dispatch is that of a slot on the instrument which accepts the event. -/
theorem exists_slot_of_failure (wf : r.WellFormed) {f : DispatchFailure}
    (hf : f ∈ (r.dispatch event).report.failures) :
    ∃ (s : Slot ε) (met : Registry ε), r.arena.get? f.handle = some s ∧
      s.key = ⟨f.alphaId, event.instrumentId⟩ ∧
      s.accepts event = true ∧ (met.run f.handle s event).result = .error f.error := by
  unfold Registry.dispatch at hf
  rw [report_feedAll] at hf
  obtain ⟨t, ht, hfailure⟩ := List.mem_filterMap.mp hf
  have hm := List.mem_map_of_mem (f := fun t : Serving ε => (t.handle, t.slot)) ht
  rw [map_servings] at hm
  obtain ⟨hslot, haccepts⟩ := List.mem_filter.mp hm
  obtain ⟨hlisted, hs⟩ := mem_slotsOn_iff.mp hslot
  obtain ⟨s, hs', hi⟩ := (wf.arena.mem_handlesOn_iff _ _).mp hlisted
  rw [hs] at hs'
  cases hs'
  unfold Serving.failure? at hfailure
  split at hfailure
  · cases hfailure
  · next hresult =>
      cases hfailure
      exact ⟨t.slot, t.registry, hs, SlotKey.mk.injEq .. ▸ ⟨rfl, hi⟩, haccepts, hresult⟩

/-- A failure in a batch is one in the dispatch of its row. -/
theorem exists_row_of_failure {chunk : Nat} {cancel : Cancellation} {row : Nat} {requested : Bool}
    {events : List MarketEvent} {f : RowFailure}
    (hf : f ∈ (r.runRows chunk cancel row requested events).1.failures) :
    ∃ first event rest, events = first ++ event :: rest ∧
      ∃ g ∈ ((r.afterEach first).dispatch event).report.failures,
        f = ⟨row + first.length, g.alphaId, .ofEngine g.error⟩ := by
  induction events generalizing r row requested with
  | nil => cases hf
  | cons event rest ih =>
      unfold runRows at hf
      split at hf
      · cases hf
      · rcases List.mem_append.mp hf with hf | hf
        · obtain ⟨g, hg, rfl⟩ := List.mem_map.mp hf
          exact ⟨[], event, rest, rfl, g, hg, rfl⟩
        · obtain ⟨first, event', rest', rfl, g, hg, rfl⟩ := ih hf
          refine ⟨event :: first, event', rest', rfl, g, hg, ?_⟩
          rw [List.length_cons, Nat.add_right_comm, Nat.add_assoc]

end

variable [AlphaHost ε]

/-- Dispatches give no handle out. -/
theorem run_afterEach (r : Registry ε) (events : List MarketEvent) :
    ∃ steps, Run r steps (r.afterEach events) ∧ issued steps = [] := by
  induction events generalizing r with
  | nil => exact ⟨[], .nil r, rfl⟩
  | cons event rest ih =>
      obtain ⟨steps, hrun, hissued⟩ := ih (r.dispatch event).registry
      have allowed : (Call.dispatch event).Allowed r := trivial
      exact ⟨_, .cons allowed rfl hrun, hissued⟩

theorem changes_afterEach (r : Registry ε) (events : List MarketEvent) :
    Changes r (r.afterEach events) := by
  induction events generalizing r with
  | nil => exact .refl
  | cons event rest ih => exact (changes_dispatch r event).trans (ih _)

theorem Stays.append {r'' : Registry ε} {steps more : List (Step ε)} (hs : Stays h r steps r')
    (hmore : Stays h r' more r'') : Stays h r (steps ++ more) r'' := by
  induction hs with
  | nil => exact hmore
  | cons live allowed performed _ ih => exact .cons live allowed performed (ih hmore)

variable [LawfulAlphaHost ε] {config : AlphaConfig} {fresh : Alpha} {k : SlotKey}
  {steps : List (Step ε)}

/-- A registration that lives through dispatches keeps its tenure. -/
theorem Tenure.afterEach (ht : Tenure config k h steps r) {events : List MarketEvent}
    (hlive : ∃ c, (r.afterEach events).cell? h = some c) :
    ∃ more, Tenure config k h more (r.afterEach events) := by
  obtain ⟨fresh, hb⟩ := ht.exists_build
  have wf := (ht.observed_eq hb).1
  obtain ⟨more, hrun, hissued⟩ := run_afterEach r events
  have hstays := hrun.stays wf (by rw [hissued]; exact List.not_mem_nil) hlive
  obtain ⟨before, r₁, r₀, hbefore, hreg, hlived⟩ := ht.lived
  exact ⟨_, before, r₁, r₀, hbefore, hreg, hlived.append hstays⟩

/-- What a registration is known by. -/
theorem Tenure.key_eq (ht : Tenure config k h steps r) {d : Cell ε} (hd : r.cell? h = some d) :
    d.slot.key = k := by
  obtain ⟨fresh, hb⟩ := ht.exists_build
  obtain ⟨c, rfl, _, hinfo⟩ := ht.grownFrom hb hd
  have hsame := hinfo h
  exact SlotKey.mk.injEq .. ▸
    ⟨congrArg SlotInfo.alphaId hsame, congrArg SlotInfo.instrumentId hsame⟩

/-- A slot that accepts an event does not fail on it for the want of a trade, in whatever
registry it runs. -/
theorem Tenure.not_missesTrade_of_run (ht : Tenure config k h steps r) {d : Cell ε}
    (hd : r.cell? h = some d) (ha : d.slot.accepts event = true) {met : Registry ε}
    {error : EngineError} (hrun : (met.run h d.slot event).result = .error error) :
    ¬ MissesTrade error := by
  obtain ⟨fresh, hb⟩ := ht.exists_build
  obtain ⟨c, rfl, _, _⟩ := ht.grownFrom hb hd
  rw [result_run, Cell.feedIn_host, ← Cell.feed_host] at hrun
  have hoffer : ((c.host : Cell ε).offer event).1 = some (.error error) := by
    unfold Cell.offer
    rw [if_pos ha]
    exact congrArg some hrun
  exact ht.not_missesTrade hd hoffer

/-- A single update that is accepted does not fail for the want of a trade. -/
theorem Tenure.not_missesTrade_of_update (ht : Tenure config k h steps r) {d : Cell ε}
    (hd : r.cell? h = some d) (ha : d.slot.accepts event = true)
    (hi : event.instrumentId = k.instrumentId) {error : EngineError}
    (hu : (r.update h event).1 = .error error) : ¬ MissesTrade error := by
  have hinstrument : d.slot.instrumentId = k.instrumentId :=
    congrArg SlotKey.instrumentId (ht.key_eq hd)
  unfold Registry.update at hu
  rw [slot_of_cell hd] at hu
  simp only [hinstrument, hi, ha, ne_eq, not_true_eq_false, if_false, Bool.not_true,
    Bool.false_eq_true] at hu
  exact ht.not_missesTrade_of_run hd ha hu

/-- No dispatch reports that a registration wants for a trade. -/
theorem Tenure.not_missesTrade_of_failure (ht : Tenure config k h steps r) {f : DispatchFailure}
    (hf : f ∈ (r.dispatch event).report.failures) (hh : f.handle = h) : ¬ MissesTrade f.error := by
  obtain ⟨fresh, hb⟩ := ht.exists_build
  obtain ⟨s, met, hs, _, haccepts, hresult⟩ := exists_slot_of_failure (ht.observed_eq hb).1 hf
  rw [hh] at hs hresult
  exact ht.not_missesTrade_of_run (cell?_of_get? hs) haccepts hresult

/-- Nor does a batch report it for a row.  The report gives the name of the registration and
not its handle, but on an instrument no other has the name. -/
theorem Tenure.not_missesTrade_of_row (ht : Tenure config k h steps r) {d : Cell ε}
    (hd : r.cell? h = some d) {chunk : Nat} {cancel : Cancellation} {row : Nat} {requested : Bool}
    {events : List MarketEvent} (hi : ∀ event ∈ events, event.instrumentId = k.instrumentId)
    {f : RowFailure} (hf : f ∈ (r.runRows chunk cancel row requested events).1.failures)
    (hname : f.alphaId = k.alphaId) {error : EngineError} (he : f.error = .ofEngine error) :
    ¬ MissesTrade error := by
  obtain ⟨fresh, hb⟩ := ht.exists_build
  have wf := (ht.observed_eq hb).1
  obtain ⟨first, event, rest, rfl, g, hg, rfl⟩ := exists_row_of_failure hf
  have hchanges := changes_afterEach r first
  obtain ⟨s, met, hs, hkey, _, _⟩ := exists_slot_of_failure (hchanges.wellFormed wf) hg
  have hevent := hi event (List.mem_append_right _ List.mem_cons_self)
  -- the registration that failed has the name of ours, so it is ours
  obtain ⟨s', hs', hsame⟩ := hchanges.narrows.get? _ s hs
  have hkey' : s'.key = d.slot.key := by
    rw [← hsame, hkey, ht.key_eq hd, hevent, show g.alphaId = k.alphaId from hname]
  have hhandle := wf.arena.eq_of_key_eq hs' (cell?_eq_some_iff.mp hd).1 hkey'
  rw [hhandle] at hs
  obtain ⟨more, ht'⟩ := ht.afterEach ⟨_, cell?_of_get? hs⟩
  intro hm
  have hsameError := HostError.eq_of_missesTrade hm he
  exact ht'.not_missesTrade_of_failure hg hhandle (hsameError ▸ hm)

/-- A batch that the check lets through has the columns that a registration declares, and
reports no want of a trade for it. -/
theorem Tenure.batch_has_fields (ht : Tenure config k h steps r) (hb : config.build = .ok fresh)
    {d : Cell ε} (hd : r.cell? h = some d) {b : Batch} (hi : b.instrumentId = k.instrumentId)
    {chunkSize : Nat} {cancel : Cancellation} {report : BatchReport}
    (hrun : (r.runBatch b chunkSize cancel).1 = .ok report) :
    (∀ field ∈ fresh.requiredFields, b.hasField field = true) ∧
      ∀ f ∈ report.failures, f.alphaId = k.alphaId →
        ∀ error, f.error = .ofEngine error → ¬ MissesTrade error := by
  have hsound : ¬ b.Flawed (r.slotsOn b.instrumentId) := by
    intro hflawed
    obtain ⟨fault, hrefused⟩ := runBatch_of_flawed hflawed chunkSize cancel
    rw [hrefused] at hrun
    cases hrun
  rw [runBatch_of_sound hsound] at hrun
  cases hrun
  constructor
  · intro field hm
    have hkey := ht.key_eq hd
    have hregistered : (h, d.slot) ∈ r.slotsOn b.instrumentId := by
      have wf := (ht.observed_eq hb).1
      have hs := (cell?_eq_some_iff.mp hd).1
      refine mem_slotsOn_iff.mpr ⟨(wf.arena.mem_handlesOn_iff _ _).mpr ⟨d.slot, hs, ?_⟩, hs⟩
      exact (congrArg SlotKey.instrumentId hkey).trans hi.symm
    obtain ⟨c, rfl, _, hinfo⟩ := ht.grownFrom hb hd
    have hfields : c.slot.requiredFields = fresh.requiredFields :=
      congrArg SlotInfo.requiredFields (hinfo h)
    exact Batch.hasField_of_not_flawed hsound hregistered (hfields ▸ hm)
  · intro f hf hname error he
    refine ht.not_missesTrade_of_row hd (fun event hm => ?_) hf hname he
    rw [Batch.instrumentId_of_mem_events hsound hm, hi]

/-- Estimators read the fields that they declare.  Of an estimator that settings build:

1. streams of events that agree on its declared fields, event by event, give the same
   readings and errors and leave the same estimator;
2. events that differ in their times only agree on the declared fields;
3. the same is true where it is registered: two registrations of the settings under the
   same names that are called alike, whatever else happens, give the same results, errors
   included, and end in the same state, up to the times of outputs;
4. wherever it is registered, an event that its slot accepts has every declared field, and
   a batch that is run has every declared column, and neither an update, a dispatch nor a
   row of a batch ever fails for the want of one. -/
theorem reads_declared_fields (hb : config.build = .ok fresh) :
    (∀ events events', List.Forall₂ fresh.SeesAlike events events' →
      fresh.updateAll events = fresh.updateAll events') ∧
    (∀ events events', List.Forall₂ MarketEvent.SameButTime events events' →
      List.Forall₂ fresh.SeesAlike events events') ∧
    (∀ k h h' (steps steps' : List (Step ε)) r r',
      Tenure config k h steps r → Tenure config k h' steps' r' →
      List.Forall₂ (Concern.Alike fresh) (concerns h k.instrumentId steps)
        (concerns h' k.instrumentId steps') →
      (observed h k.alphaId k.instrumentId steps).map (·.2.unstamped) =
          (observed h' k.alphaId k.instrumentId steps').map (·.2.unstamped) ∧
        ∀ d d', r.cell? h = some d → r'.cell? h' = some d' → d.Alike d') ∧
    ∀ k h (steps : List (Step ε)) r d, Tenure config k h steps r → r.cell? h = some d →
      (∀ event, d.slot.accepts event = true →
        (∀ field ∈ fresh.requiredFields, (event.field? field).isSome = true) ∧
          (event.instrumentId = k.instrumentId →
            ∀ error, (r.update h event).1 = .error error → ¬ MissesTrade error)) ∧
      (∀ event, ∀ f ∈ (r.dispatch event).report.failures, f.handle = h → ¬ MissesTrade f.error) ∧
      ∀ b chunkSize cancel report, b.instrumentId = k.instrumentId →
        (r.runBatch b chunkSize cancel).1 = .ok report →
        (∀ field ∈ fresh.requiredFields, b.hasField field = true) ∧
          ∀ f ∈ report.failures, f.alphaId = k.alphaId →
            ∀ error, f.error = .ofEngine error → ¬ MissesTrade error := by
  refine ⟨?_, ?_, ?_, ?_⟩
  · intro events events' hsees
    exact (Alpha.grownFrom_of_build hb).updateAll_congr hsees
  · intro events events' htimes
    exact htimes.imp fun _ _ h => fresh.seesAlike_of_sameButTime h
  · intro k h h' steps steps' r r' ht ht' hks
    exact ht.observed_alike ht' hb hks
  · intro k h steps r d ht hd
    refine ⟨fun event ha => ⟨?_, fun hi error hu => ?_⟩, fun event f hf hh => ?_, ?_⟩
    · obtain ⟨c, rfl, _, hinfo⟩ := ht.grownFrom hb hd
      have hfields : c.slot.requiredFields = fresh.requiredFields :=
        congrArg SlotInfo.requiredFields (hinfo h)
      rw [← hfields]
      exact Slot.accepts_iff.mp ha
    · exact ht.not_missesTrade_of_update hd ha hi hu
    · exact ht.not_missesTrade_of_failure hf hh
    · intro b chunkSize cancel report hi hrun
      exact ht.batch_has_fields hb hd hi hrun

/-- An event on `X` with a trade at 100. -/
def printAt (timestamp : UInt64) (bidPrice size : Float) : MarketEvent :=
  ⟨⟨timestamp⟩, ⟨"X"⟩, bidPrice, 10, 101, 5, some ⟨100, size⟩⟩

/-- Calls on a registration on `X` that has the given trades. -/
def callsOn (first second : MarketEvent) : List (Call Alpha) :=
  [.dispatch first, .rebase ⟨0, 0⟩, .update ⟨0, 0⟩ second, .latest ⟨0, 0⟩]

/-- A detector that reads trades sees neither quotes nor times nor sizes. -/
theorem reads_declared_fields_tradeWindow :
    ∃ steps steps' r r' d,
      Tenure (.klRegime tradeWindow) ⟨⟨"a"⟩, ⟨"X"⟩⟩ ⟨0, 0⟩ steps r ∧
      Tenure (.klRegime tradeWindow) ⟨⟨"a"⟩, ⟨"X"⟩⟩ ⟨0, 0⟩ steps' r' ∧
      steps.map (·.call) = callsOn (printAt 1 99 2) (printAt 2 99 2) ∧
      steps'.map (·.call) = callsOn (printAt 7 (-1) 3) (printAt 7 98 (0 / 0)) ∧
      (observed ⟨0, 0⟩ ⟨"a"⟩ ⟨"X"⟩ steps).map (·.2.unstamped) =
        (observed ⟨0, 0⟩ ⟨"a"⟩ ⟨"X"⟩ steps').map (·.2.unstamped) ∧
      r.cell? ⟨0, 0⟩ = some d ∧ d.slot.accepts (printAt 3 99 2) = true ∧
      ∀ error, (r.update ⟨0, 0⟩ (printAt 3 99 2)).1 = .error error → ¬ MissesTrade error := by
  obtain ⟨fresh, hb⟩ := Alpha.exists_build
    (show (AlphaConfig.klRegime tradeWindow).validate = .ok () from rfl)
  have hfresh : fresh.requiredFields = [.tradePrice] ∧ fresh.kind = .klRegime := by
    cases hb
    exact ⟨rfl, rfl⟩
  have hsees : ∀ t t' bid bid' size size',
      fresh.SeesAlike (printAt t bid size) (printAt t' bid' size') := by
    intro t t' bid bid' size size'
    refine ⟨fun field hm => ?_, fun hofi => ?_⟩
    · rw [hfresh.1, List.mem_singleton] at hm
      rw [hm]
      rfl
    · rw [hfresh.2] at hofi
      cases hofi
  have hkept : ∀ first second, ∀ call ∈ callsOn first second, ¬ call.Removes ⟨0, 0⟩ := by
    simp [callsOn, Call.Removes]
  obtain ⟨steps, r, ht, hcalls, d, hd⟩ := exists_tenure hb ⟨⟨"a"⟩, ⟨"X"⟩⟩ _
    (hkept (printAt 1 99 2) (printAt 2 99 2))
  obtain ⟨steps', r', ht', hcalls', _⟩ := exists_tenure hb ⟨⟨"a"⟩, ⟨"X"⟩⟩ _
    (hkept (printAt 7 (-1) 3) (printAt 7 98 (0 / 0)))
  have hks : List.Forall₂ (Concern.Alike fresh) (concerns ⟨0, 0⟩ ⟨"X"⟩ steps)
      (concerns ⟨0, 0⟩ ⟨"X"⟩ steps') := by
    rw [concerns_eq, concerns_eq, hcalls, hcalls']
    exact .cons (.event (hsees ..)) (.cons (.call .rebase (by simp))
      (.cons (.update rfl (hsees ..)) (.cons (.call .latest (by simp)) .nil)))
  have haccepts : d.slot.accepts (printAt 3 99 2) = true := by
    unfold Slot.accepts
    exact Bool.or_true _
  obtain ⟨_, _, halike, hthere⟩ := reads_declared_fields (ε := Alpha) hb
  have hupdate := ((hthere _ _ _ _ _ ht hd).1 _ haccepts).2 rfl
  exact ⟨steps, steps', r, r', d, ht, ht', hcalls, hcalls', (halike _ _ _ _ _ _ _ ht ht' hks).1,
    hd, haccepts, hupdate⟩

end Registry

end MarketSignals
