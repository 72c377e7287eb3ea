import MarketSignals.Proofs.Alpha.Trades
import MarketSignals.Proofs.Registry.Restart

/-!
# Dispatch as a sequence of updates

A dispatch offers its event to the estimators on the instrument in order of
registration.  So does a caller who updates them one by one.  The two differ in what
they say of an estimator that does not take events of this kind: the dispatch counts
it, the update is refused.  Both leave it alone.

## Main definitions

* `updateEach` — one update after the other.
* `Sums` — a report sums up the results of updates.

## Main results

* `updateEach_eq` — the updates of cells that are listed once.
* `dispatch_is_updates` — every state that calls lead to, and every event.
-/

namespace MarketSignals

variable {ε : Type}

/-! ## One cell -/

/-- Whether a slot is passed over: it reads the trade and the event has none. -/
def Slot.passesOver (s : Slot ε) (event : MarketEvent) : Bool := s.needsTrade && !event.isTrade

theorem Slot.accepts_eq (s : Slot ε) (event : MarketEvent) :
    s.accepts event = !s.passesOver event := by
  unfold accepts passesOver
  cases s.needsTrade <;> cases event.isTrade <;> rfl

namespace Cell

variable [Estimator ε] {c : Cell ε} {event : MarketEvent}

/-- On its instrument, an update of a cell is an offer that is refused where the cell
passes over. -/
theorem update_eq_offer (hi : c.slot.instrumentId = event.instrumentId) :
    c.update event =
      ((c.offer event).1.getD (.error (Registry.noTradeError c.slot)), (c.offer event).2) := by
  unfold Cell.update offer
  rw [if_neg (not_not.mpr hi.symm)]
  cases ha : c.slot.accepts event with
  | true => rfl
  | false => rfl

theorem offer_eq_none_iff : (c.offer event).1 = none ↔ c.slot.passesOver event = true := by
  unfold offer
  rw [Slot.accepts_eq]
  cases c.slot.passesOver event <;> simp

theorem offer_of_passesOver (hp : c.slot.passesOver event = true) :
    c.offer event = (none, c) := by
  unfold offer
  rw [Slot.accepts_eq, hp]
  rfl

end Cell

namespace Registry

variable {r : Registry ε} {h : Handle} {event : MarketEvent}

/-! ## One update after the other -/

/-- An estimator and the result of updating it. -/
abbrev Updated := Handle × Except EngineError SignalOutput

/-- Updates estimators one call after the other. -/
def updateEach [Estimator ε] (event : MarketEvent) :
    List Handle → Registry ε → List Updated × Registry ε
  | [], r => ([], r)
  | h :: rest, r =>
      let updated := r.update h event
      let others := updateEach event rest updated.2
      ((h, updated.1) :: others.1, others.2)

/-- Whether the estimator that a handle reaches is passed over. -/
def passesOver (r : Registry ε) (event : MarketEvent) (h : Handle) : Bool :=
  match r.slot h with
  | .ok s => s.passesOver event
  | .error _ => false

/-- The failure that an update reports, unless its estimator is passed over. -/
def failureOf? (r : Registry ε) (event : MarketEvent) (u : Updated) : Option DispatchFailure :=
  match r.slot u.1, u.2 with
  | .ok s, .error error => if s.passesOver event then none else some ⟨u.1, s.alphaId, error⟩
  | _, _ => none

/-- A report sums up the results of updates: what succeeded, what failed though the
event was taken, and how many were passed over. -/
structure Sums (r : Registry ε) (event : MarketEvent) (updated : List Updated)
    (d : DispatchReport) : Prop where
  outputs : d.outputs = updated.filterMap (·.2.toOption)
  failures : d.failures = updated.filterMap (r.failureOf? event)
  skipped : d.skipped = updated.countP (r.passesOver event ·.1)

section

variable [Estimator ε] [Solitary ε] {cells : List (Handle × Cell ε)}

/-- What the updates of cells give by themselves. -/
def updatedOf (event : MarketEvent) (cells : List (Handle × Cell ε)) : List Updated :=
  cells.map fun p => (p.1, (p.2.offer event).1.getD (.error (noTradeError p.2.slot)))

/-- Updates of cells on the instrument that are listed once: every cell gives what it
gives by itself, and all of them are written back. -/
theorem updateEach_eq (hh : r.Holds cells)
    (hi : ∀ p ∈ cells, p.2.slot.instrumentId = event.instrumentId) :
    updateEach event (cells.map Prod.fst) r =
      (updatedOf event cells, r.putAll (offerAll event cells)) := by
  induction cells generalizing r with
  | nil => rfl
  | cons p rest ih =>
      have hcell := hh.cell p.1 p.2 List.mem_cons_self
      have hrest := ih (hh.put (p.2.offer event).2) fun q hq => hi q (List.mem_cons_of_mem p hq)
      have hupdate := update_eq hcell event
      rw [Cell.update_eq_offer (hi p List.mem_cons_self)] at hupdate
      simp only [List.map_cons, updateEach, hupdate, hrest]
      rfl

omit [Estimator ε] [Solitary ε] in
theorem failureOf?_of_cell {c : Cell ε} (hc : r.cell? h = some c)
    (result : Except EngineError SignalOutput) :
    r.failureOf? event (h, result) =
      match result with
      | .ok _ => none
      | .error error =>
          if c.slot.passesOver event then none else some ⟨h, c.slot.alphaId, error⟩ := by
  unfold failureOf?
  rw [slot_of_cell hc]
  cases result <;> rfl

omit [Estimator ε] [Solitary ε] in
theorem passesOver_of_cell {c : Cell ε} (hc : r.cell? h = some c) :
    r.passesOver event h = c.slot.passesOver event := by
  unfold passesOver
  rw [slot_of_cell hc]

omit [Solitary ε] in
/-- The report on an event that was offered to cells sums up their updates. -/
theorem sums_reportOn (hcells : ∀ p ∈ cells, r.cell? p.1 = some p.2) :
    r.Sums event (updatedOf event cells) (reportOn event cells) := by
  induction cells with
  | nil => exact ⟨rfl, rfl, rfl⟩
  | cons p rest ih =>
      have hp := hcells p List.mem_cons_self
      obtain ⟨houtputs, hfailures, hskipped⟩ :=
        ih fun q hq => hcells q (List.mem_cons_of_mem p hq)
      have hreport : reportOn event (p :: rest) =
          (reportOn event rest).note p.1 p.2.slot.alphaId (p.2.offer event).1 := rfl
      have hupdated : updatedOf event (p :: rest) =
          (p.1, (p.2.offer event).1.getD (.error (noTradeError p.2.slot))) ::
            updatedOf event rest := rfl
      have hpasses : r.passesOver event p.1 = (p.2.offer event).1.isNone := by
        rw [passesOver_of_cell hp, Bool.eq_iff_iff, Option.isNone_iff_eq_none,
          Cell.offer_eq_none_iff]
      have hfailure : ∀ result, r.failureOf? event (p.1, result) = _ := failureOf?_of_cell hp
      rw [← passesOver_of_cell hp, hpasses] at hfailure
      rw [hreport, hupdated]
      cases ho : (p.2.offer event).1 with
      | none =>
          rw [ho] at hpasses hfailure
          refine ⟨?_, ?_, ?_⟩
          · exact houtputs
          · simpa [DispatchReport.note, hfailure] using hfailures
          · simpa [DispatchReport.note, hpasses] using hskipped
      | some result =>
          rw [ho] at hpasses hfailure
          cases result with
          | ok output =>
              refine ⟨?_, ?_, ?_⟩
              · exact congrArg (output :: ·) houtputs
              · simpa [DispatchReport.note, DispatchReport.record, hfailure] using hfailures
              · simpa [DispatchReport.note, DispatchReport.record, hpasses] using hskipped
          | error error =>
              refine ⟨?_, ?_, ?_⟩
              · exact houtputs
              · simpa [DispatchReport.note, DispatchReport.record, hfailure] using hfailures
              · simpa [DispatchReport.note, DispatchReport.record, hpasses] using hskipped

end

end Registry

/-! ## How many a report speaks of -/

/-- The number of estimators that a report speaks of. -/
def DispatchReport.size (d : DispatchReport) : Nat :=
  d.outputs.length + d.failures.length + d.skipped

theorem DispatchReport.size_note (d : DispatchReport) (h : Handle) (alphaId : AlphaId)
    (part : Option (Except EngineError SignalOutput)) :
    (d.note h alphaId part).size = d.size + 1 := by
  cases part with
  | none => rfl
  | some result =>
      cases result with
      | ok output =>
          simp only [note, record, size, List.length_cons]
          omega
      | error error =>
          simp only [note, record, size, List.length_cons]
          omega

theorem size_reportOn [Estimator ε] (event : MarketEvent) (cells : List (Handle × Cell ε)) :
    (reportOn event cells).size = cells.length := by
  induction cells with
  | nil => rfl
  | cons p rest ih => exact (DispatchReport.size_note _ _ _ _).trans (congrArg (· + 1) ih)

/-! ## The engine's estimators -/

/-- One of the engine's estimators takes an event in the same way wherever it is. -/
theorem Cell.feed_host [AlphaHost ε] [LawfulAlphaHost ε] (c : Cell Alpha) (event : MarketEvent) :
    (c.host : Cell ε).feed event = (c.feed event).map id Cell.host := by
  have hupdate : (Estimator.update (c.host : Cell ε).slot.estimator event).outcome =
      (c.slot.estimator.update event).map id AlphaHost.ofAlpha := by
    show (Estimator.update (AlphaHost.ofAlpha c.slot.estimator : ε) event).outcome = _
    rw [LawfulAlphaHost.update_ofAlpha]
    rfl
  unfold feed
  rw [hupdate, show (c.host : Cell ε).slot = c.slot.host from rfl, Slot.absorb_host, outcome_update]
  show (if c.slot.disabled = true then _ else _) = _
  split
  · rfl
  · cases c.slot.absorb (c.slot.estimator.update event) with
    | mk result slot => cases result <;> rfl

/-- A cell that declares what its estimator reads does not want for a trade. -/
theorem Cell.not_missesTrade {c : Cell Alpha} {event : MarketEvent}
    (hfields : c.slot.requiredFields = c.slot.estimator.requiredFields) {error : EngineError}
    (ho : (c.offer event).1 = some (.error error)) : ¬ MissesTrade error := by
  unfold offer at ho
  split at ho
  · next ha =>
      have htakes : c.slot.estimator.Takes event := by
        intro hany
        rw [← hfields] at hany
        simpa [Slot.accepts, Slot.needsTrade, hany] using ha
      have hf : (c.feed event).1 = .error error := Option.some.inj ho
      unfold feed at hf
      rw [outcome_update] at hf
      split at hf
      · cases hf
        exact not_missesTrade_invariant _
      · cases hu : c.slot.estimator.update event with
        | mk result a =>
            rw [hu] at hf
            cases result with
            | ok reading => cases hf
            | error fault =>
                cases fault with
                | refused refusal =>
                    cases hf
                    exact Alpha.not_missesTrade htakes hu
                | panicked panic =>
                    cases hf
                    exact not_missesTrade_invariant _
  · cases ho

namespace Registry

/-- A cell of the engine's estimators declares what they read, as long as it is
registered. -/
theorem Tenure.not_missesTrade [AlphaHost ε] [LawfulAlphaHost ε] {config : AlphaConfig}
    {k : SlotKey} {h : Handle} {steps : List (Step ε)} {r : Registry ε} {event : MarketEvent}
    (ht : Tenure config k h steps r) {d : Cell ε} (hd : r.cell? h = some d) {error : EngineError}
    (ho : (d.offer event).1 = some (.error error)) : ¬ MissesTrade error := by
  obtain ⟨fresh, hb⟩ := ht.exists_build
  obtain ⟨c, rfl, hgrown, hinfo⟩ := ht.grownFrom hb hd
  have hfields : c.slot.requiredFields = c.slot.estimator.requiredFields := by
    have hsame : c.slot.requiredFields = fresh.requiredFields :=
      congrArg SlotInfo.requiredFields (hinfo h)
    rw [hsame, hgrown.requiredFields_eq]
  have hhost : ((c.host : Cell ε).offer event).1 = (c.offer event).1 := by
    unfold Cell.offer
    rw [Cell.feed_host]
    show (if c.slot.accepts event then _ else _ : Option _ × Cell ε).1 = _
    split <;> rfl
  rw [hhost] at ho
  exact Cell.not_missesTrade hfields ho

/-- Dispatch is the sequence of single updates.  Whatever calls have led to a registry,
updating the estimators on the instrument of an event one by one, in order of
registration, leaves the registry that a dispatch of the event leaves.  The report sums
the updates up, every one of them once.  An update that the dispatch passes over is
refused for the want of a trade and touches nothing; and of the engine's estimators,
whatever may be registered beside them, no dispatch ever reports a failure for it. -/
theorem dispatch_is_updates [AlphaHost ε] [LawfulAlphaHost ε] [Solitary ε] {r : Registry ε}
    {steps : List (Step ε)} (hr : Run .empty steps r) (event : MarketEvent) :
    let handles := r.handlesOn event.instrumentId
    let updates := updateEach event handles r
    let dispatched := r.dispatch event
    updates.2 = dispatched.registry ∧ updates.1.map Prod.fst = handles ∧
      r.Sums event updates.1 dispatched.report ∧ dispatched.report.size = handles.length ∧
      (∀ h ∈ handles, ∀ s, r.slot h = .ok s → s.passesOver event = true →
        (noTradeError s).code = .invalidInput ∧ (h, .error (noTradeError s)) ∈ updates.1 ∧
          updates.2.cell? h = r.cell? h ∧ r.update h event = (.error (noTradeError s), r)) ∧
      ∀ (config : AlphaConfig) (k : SlotKey) (h : Handle) (tenure : List (Step ε)),
        Tenure config k h tenure r → ∀ f ∈ dispatched.report.failures, f.handle = h →
          ¬ MissesTrade f.error := by
  have wf := (empty_logged.run hr).wellFormed
  have hh := holds_cellsOn wf event.instrumentId
  have hon : ∀ p ∈ r.cellsOn event.instrumentId,
      r.cell? p.1 = some p.2 ∧ p.2.slot.instrumentId = event.instrumentId :=
    fun p hp => (mem_cellsOn_iff wf).mp hp
  have hhandles := map_fst_cellsOn wf event.instrumentId
  have heach := updateEach_eq hh fun p hp => (hon p hp).2
  rw [hhandles] at heach
  obtain ⟨hreport, hregistry⟩ := dispatch_eq wf event
  refine ⟨?_, ?_, ?_, ?_, ?_, ?_⟩
  · rw [heach, hregistry]
  · rw [heach, ← hhandles]
    exact List.map_map
  · rw [heach, hreport]
    exact sums_reportOn fun p hp => (hon p hp).1
  · rw [hreport, size_reportOn, ← hhandles, List.length_map]
  · intro h hm s hs hpasses
    rw [← hhandles] at hm
    obtain ⟨⟨g, c⟩, hcell, rfl⟩ := List.mem_map.mp hm
    obtain ⟨hc, hi⟩ := hon _ hcell
    rw [slot_of_cell hc] at hs
    cases hs
    have hoffer := Cell.offer_of_passesOver hpasses
    have hupdate := update_eq hc event
    rw [Cell.update_eq_offer hi, hoffer, put_self hc] at hupdate
    refine ⟨rfl, ?_, ?_, hupdate⟩
    · rw [heach]
      refine List.mem_map.mpr ⟨(g, c), hcell, ?_⟩
      rw [hoffer]
      rfl
    · rw [heach, hc]
      refine cell?_putAll_of_mem hh (map_fst_offerAll event _) (List.mem_map.mpr ⟨(g, c), hcell, ?_⟩)
      rw [hoffer]
  · intro config k h tenure ht f hf hfh
    rw [hreport] at hf
    obtain ⟨c, hcell, ho⟩ := handle_mem_of_failure hf
    rw [hfh] at hcell
    exact ht.not_missesTrade (hon _ hcell).1 ho

/-- Settings of a detector that reads trades. -/
def tradeWindow : Regime.Config := { Regime.shortWindow with input := { source := .lastTrade } }

/-- Calls that leave two estimators on the instrument, of which one reads trades. -/
def mixedCalls : List (Call Alpha) :=
  [.register ⟨"b"⟩ ⟨"X"⟩ (.ofi { marketCap := 3 }), .dispatch (quote "X" 10),
    .update ⟨1, 0⟩ (quote "X" (-1)), .update ⟨0, 0⟩ (quote "X" 12)]

theorem dispatch_is_updates_mixed :
    ∃ steps r s, Run (.empty : Registry Alpha) steps r ∧ r.slot ⟨0, 0⟩ = .ok s ∧
      s.passesOver (quote "X" (-1)) = true ∧
      (updateEach (quote "X" (-1)) (r.handlesOn ⟨"X"⟩) r).2 =
        (r.dispatch (quote "X" (-1))).registry ∧
      (⟨0, 0⟩, .error (noTradeError s)) ∈
        (updateEach (quote "X" (-1)) (r.handlesOn ⟨"X"⟩) r).1 := by
  obtain ⟨fresh, hb⟩ := Alpha.exists_build
    (show (AlphaConfig.klRegime tradeWindow).validate = .ok () from rfl)
  obtain ⟨tenure, r, ht, _, c, hc⟩ := exists_tenure hb ⟨⟨"a"⟩, ⟨"X"⟩⟩ mixedCalls
    (by simp [mixedCalls, Call.Removes])
  obtain ⟨steps, hr⟩ := ht.run
  obtain ⟨c', rfl, _, hinfo⟩ := ht.grownFrom hb hc
  have hslot := slot_of_cell hc
  have hpasses : (c'.host : Cell Alpha).slot.passesOver (quote "X" (-1)) = true := by
    have hfields : c'.slot.requiredFields = fresh.requiredFields :=
      congrArg SlotInfo.requiredFields (hinfo ⟨0, 0⟩)
    have hfresh : fresh.requiredFields = [.tradePrice] := by
      cases hb
      rfl
    show (c'.slot.requiredFields.any EventField.ofTrade && _) = true
    rw [hfields, hfresh]
    rfl
  have hon : (⟨0, 0⟩ : Handle) ∈ r.handlesOn ⟨"X"⟩ := by
    have hi : c'.slot.instrumentId = ⟨"X"⟩ := congrArg SlotInfo.instrumentId (hinfo ⟨0, 0⟩)
    rw [← map_fst_cellsOn (empty_logged.run hr).wellFormed]
    exact List.mem_map.mpr
      ⟨_, (mem_cellsOn_iff (empty_logged.run hr).wellFormed).mpr ⟨hc, hi⟩, rfl⟩
  obtain ⟨hregistry, _, _, _, hpassed, _⟩ := dispatch_is_updates hr (quote "X" (-1))
  exact ⟨steps, r, _, hr, hslot, hpasses, hregistry, (hpassed _ hon _ hslot hpasses).2.1⟩

end Registry

end MarketSignals
