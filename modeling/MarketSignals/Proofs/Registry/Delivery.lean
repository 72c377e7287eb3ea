import MarketSignals.Proofs.Registry.Cell
import MarketSignals.Proofs.Registry.WellFormed

/-!
# Dispatch, cell by cell

Dispatch feeds the estimators on an instrument one after the other, each seeing
the registry that the ones before have left.  When no estimator makes a request,
it offers the event to every cell on the instrument by itself, and writes the
cells back.

## Main definitions

* `cellsOn` — the cells on an instrument, in order of registration.
* `putAll`, `offerAll`, `reportOn` — writing cells, offering an event to them and
  what a dispatch reports of it.

## Main results

* `dispatch_eq` — dispatch through the cells.
* `about_reportOn` — what a report says about one estimator is what its cell has
  answered.
-/

namespace MarketSignals

variable {ε : Type}

/-! ## Reports -/

namespace DispatchReport

/-- The report with the answer of an estimator in front. -/
def note (d : DispatchReport) (h : Handle) (alphaId : AlphaId) :
    Option (Except EngineError SignalOutput) → DispatchReport
  | none => { d with skipped := d.skipped + 1 }
  | some result => d.record h alphaId result

/-- What a report says about one estimator: its failure, its output, or nothing
when it was passed over. -/
def about (d : DispatchReport) (h : Handle) (alphaId : AlphaId) :
    Option (Except EngineError SignalOutput) :=
  match d.failures.find? (·.handle == h) with
  | some failure => some (.error failure.error)
  | none => (d.outputs.find? (·.alphaId == alphaId)).map .ok

end DispatchReport

/-- The cells after an event was offered to each. -/
def offerAll [Estimator ε] (event : MarketEvent) (cells : List (Handle × Cell ε)) :
    List (Handle × Cell ε) :=
  cells.map fun p => (p.1, (p.2.offer event).2)

theorem map_fst_offerAll [Estimator ε] (event : MarketEvent) (cells : List (Handle × Cell ε)) :
    (offerAll event cells).map Prod.fst = cells.map Prod.fst := by
  rw [offerAll, List.map_map]
  rfl

/-- The report on an event that was offered to cells. -/
def reportOn [Estimator ε] (event : MarketEvent) (cells : List (Handle × Cell ε)) :
    DispatchReport :=
  cells.foldr (fun p d => d.note p.1 p.2.slot.alphaId (p.2.offer event).1) {}

namespace Cell

variable [Estimator ε]

theorem alphaId_feed {c : Cell ε} {event : MarketEvent} {o : SignalOutput}
    (ho : (c.feed event).1 = .ok o) : o.alphaId = c.slot.alphaId := by
  have hk := key_feed c event
  unfold feed at ho hk
  split at ho
  · cases ho
  · next hd =>
      simp only [if_neg hd] at hk
      split at ho
      · cases ho
      · next heq =>
          cases ho
          rw [heq] at hk
          exact congrArg SlotKey.alphaId hk

theorem alphaId_offer {c : Cell ε} {event : MarketEvent} {o : SignalOutput}
    (ho : (c.offer event).1 = some (.ok o)) : o.alphaId = c.slot.alphaId := by
  unfold offer at ho
  split at ho
  · exact alphaId_feed (Option.some.inj ho)
  · cases ho

end Cell

section Reports

variable [Estimator ε] {event : MarketEvent} {cells : List (Handle × Cell ε)}

theorem handle_mem_of_failure {f : DispatchFailure} (hf : f ∈ (reportOn event cells).failures) :
    ∃ c, (f.handle, c) ∈ cells ∧ (c.offer event).1 = some (.error f.error) := by
  induction cells with
  | nil => cases hf
  | cons p rest ih =>
      have hrest : f ∈ (reportOn event rest).failures →
          ∃ c, (f.handle, c) ∈ p :: rest ∧ (c.offer event).1 = some (.error f.error) := by
        intro hm
        obtain ⟨c, hc, ho⟩ := ih hm
        exact ⟨c, List.mem_cons_of_mem p hc, ho⟩
      cases ho : (p.2.offer event).1 with
      | none =>
          simp only [reportOn, List.foldr_cons, ho, DispatchReport.note] at hf
          exact hrest hf
      | some result =>
          cases result with
          | ok o =>
              simp only [reportOn, List.foldr_cons, ho, DispatchReport.note,
                DispatchReport.record] at hf
              exact hrest hf
          | error error =>
              simp only [reportOn, List.foldr_cons, ho, DispatchReport.note,
                DispatchReport.record, List.mem_cons] at hf
              rcases hf with rfl | hf
              · exact ⟨p.2, List.mem_cons_self, ho⟩
              · exact hrest hf

theorem alphaId_mem_of_output {o : SignalOutput} (ho : o ∈ (reportOn event cells).outputs) :
    ∃ p ∈ cells, p.2.slot.alphaId = o.alphaId := by
  induction cells with
  | nil => cases ho
  | cons p rest ih =>
      have hrest : o ∈ (reportOn event rest).outputs →
          ∃ q ∈ p :: rest, q.2.slot.alphaId = o.alphaId := by
        intro hm
        obtain ⟨q, hq, heq⟩ := ih hm
        exact ⟨q, List.mem_cons_of_mem p hq, heq⟩
      cases hoffer : (p.2.offer event).1 with
      | none =>
          simp only [reportOn, List.foldr_cons, hoffer, DispatchReport.note] at ho
          exact hrest ho
      | some result =>
          cases result with
          | error error =>
              simp only [reportOn, List.foldr_cons, hoffer, DispatchReport.note,
                DispatchReport.record] at ho
              exact hrest ho
          | ok output =>
              simp only [reportOn, List.foldr_cons, hoffer, DispatchReport.note,
                DispatchReport.record, List.mem_cons] at ho
              rcases ho with rfl | ho
              · exact ⟨p, List.mem_cons_self, (Cell.alphaId_offer hoffer).symm⟩
              · exact hrest ho

/-- What a report says about one estimator is what its cell has answered, names
and handles of the cells being different. -/
theorem about_reportOn (hhandles : (cells.map Prod.fst).Nodup)
    (hnames : (cells.map (·.2.slot.alphaId)).Nodup) {h : Handle} {c : Cell ε}
    (hm : (h, c) ∈ cells) :
    (reportOn event cells).about h c.slot.alphaId = (c.offer event).1 := by
  induction cells with
  | nil => cases hm
  | cons p rest ih =>
      rw [List.map_cons, List.nodup_cons] at hhandles hnames
      -- nothing in the rest of the report is about the first cell
      have hfailures : (reportOn event rest).failures.find? (·.handle == p.1) = none := by
        rw [List.find?_eq_none]
        intro f hf heq
        obtain ⟨c', hc', _⟩ := handle_mem_of_failure hf
        exact hhandles.1 (List.mem_map.mpr ⟨_, hc', eq_of_beq heq⟩)
      have houtputs : (reportOn event rest).outputs.find? (·.alphaId == p.2.slot.alphaId) =
          none := by
        rw [List.find?_eq_none]
        intro o ho heq
        obtain ⟨q, hq, hqo⟩ := alphaId_mem_of_output ho
        exact hnames.1 (List.mem_map.mpr ⟨q, hq, hqo.trans (eq_of_beq heq)⟩)
      have hcons : reportOn event (p :: rest) =
          (reportOn event rest).note p.1 p.2.slot.alphaId (p.2.offer event).1 := rfl
      rw [hcons]
      rcases List.mem_cons.mp hm with rfl | hm
      · cases ho : (c.offer event).1 with
        | none => simp [DispatchReport.note, DispatchReport.about, hfailures, houtputs]
        | some result =>
            cases result with
            | error error => simp [DispatchReport.note, DispatchReport.record, DispatchReport.about]
            | ok o =>
                simp [DispatchReport.note, DispatchReport.record, DispatchReport.about, hfailures,
                  Cell.alphaId_offer ho]
      · have hne : p.1 ≠ h := fun heq => hhandles.1 (List.mem_map.mpr ⟨_, hm, heq.symm⟩)
        have hname : p.2.slot.alphaId ≠ c.slot.alphaId :=
          fun heq => hnames.1 (List.mem_map.mpr ⟨_, hm, heq.symm⟩)
        rw [← ih hhandles.2 hnames.2 hm]
        cases ho : (p.2.offer event).1 with
        | none => rfl
        | some result =>
            cases result with
            | error error => simp [DispatchReport.note, DispatchReport.record, DispatchReport.about, hne]
            | ok o =>
                simp [DispatchReport.note, DispatchReport.record, DispatchReport.about,
                  Cell.alphaId_offer ho, hname]

end Reports

/-! ## Writing cells -/

namespace Registry

variable {r : Registry ε} {g h : Handle} {c d : Cell ε} {cells more : List (Handle × Cell ε)}
  {i j : InstrumentId}

/-- The registry with cells put where their handles point to. -/
def putAll (r : Registry ε) (cells : List (Handle × Cell ε)) : Registry ε :=
  cells.foldl (fun r p => r.put p.1 p.2) r

@[simp] theorem putAll_nil (r : Registry ε) : r.putAll [] = r := rfl

@[simp] theorem putAll_cons (r : Registry ε) (p : Handle × Cell ε) :
    r.putAll (p :: cells) = (r.put p.1 p.2).putAll cells := rfl

@[simp] theorem handlesOn_putAll (r : Registry ε) (cells : List (Handle × Cell ε))
    (i : InstrumentId) : (r.putAll cells).handlesOn i = r.handlesOn i := by
  induction cells generalizing r with
  | nil => rfl
  | cons p rest ih => rw [putAll_cons, ih, handlesOn_put]

/-- The listed cells are those of the registry, each listed once. -/
structure Holds (r : Registry ε) (cells : List (Handle × Cell ε)) : Prop where
  nodup : (cells.map Prod.fst).Nodup
  cell : ∀ h c, (h, c) ∈ cells → r.cell? h = some c

/-- Writing one cell leaves the others as they are listed. -/
theorem Holds.put {p : Handle × Cell ε} (hh : r.Holds (p :: cells)) (d : Cell ε) :
    (r.put p.1 d).Holds cells := by
  have hnd := List.nodup_cons.mp (List.map_cons ▸ hh.nodup)
  refine ⟨hnd.2, fun h c hm => ?_⟩
  have hne : h ≠ p.1 := fun heq => hnd.1 (List.mem_map.mpr ⟨_, hm, heq⟩)
  rw [cell?_put (hh.cell p.1 p.2 List.mem_cons_self), if_neg hne]
  exact hh.cell h c (List.mem_cons_of_mem p hm)

theorem Holds.tail {p : Handle × Cell ε} (hh : r.Holds (p :: cells)) : r.Holds cells :=
  ⟨(List.nodup_cons.mp (List.map_cons ▸ hh.nodup)).2,
    fun h c hm => hh.cell h c (List.mem_cons_of_mem p hm)⟩

/-- Cells written to other places are not seen. -/
theorem cell?_putAll_of_notMem {new : List (Handle × Cell ε)} (hh : r.Holds cells)
    (hfst : new.map Prod.fst = cells.map Prod.fst) (hg : g ∉ cells.map Prod.fst) :
    (r.putAll new).cell? g = r.cell? g := by
  induction cells generalizing r new with
  | nil =>
      rw [List.map_nil, List.map_eq_nil_iff] at hfst
      rw [hfst, putAll_nil]
  | cons p rest ih =>
      rw [List.map_cons, List.map_eq_cons_iff] at hfst
      obtain ⟨q, new, rfl, hq, hrest⟩ := hfst
      rw [List.map_cons, List.mem_cons, not_or] at hg
      rw [putAll_cons, hq, ih (hh.put q.2) hrest hg.2,
        cell?_put (hh.cell p.1 p.2 List.mem_cons_self), if_neg hg.1]

/-- A cell that was written is what is read afterwards. -/
theorem cell?_putAll_of_mem {new : List (Handle × Cell ε)} (hh : r.Holds cells)
    (hfst : new.map Prod.fst = cells.map Prod.fst) (hm : (g, d) ∈ new) :
    (r.putAll new).cell? g = some d := by
  induction cells generalizing r new with
  | nil =>
      rw [List.map_nil, List.map_eq_nil_iff] at hfst
      rw [hfst] at hm
      cases hm
  | cons p rest ih =>
      rw [List.map_cons, List.map_eq_cons_iff] at hfst
      obtain ⟨q, new, rfl, hq, hrest⟩ := hfst
      rw [putAll_cons, hq]
      rcases List.mem_cons.mp hm with rfl | hm
      · have hg : p.1 ∉ rest.map Prod.fst := (List.nodup_cons.mp (List.map_cons ▸ hh.nodup)).1
        have hgp : g = p.1 := hq
        rw [hgp, cell?_putAll_of_notMem (hh.put d) hrest hg,
          cell?_put (hh.cell p.1 p.2 List.mem_cons_self), if_pos rfl]
      · exact ih (hh.put q.2) hrest hm

theorem putAll_put (r : Registry ε) (hg : g ∉ cells.map Prod.fst) (d : Cell ε) :
    (r.put g d).putAll cells = (r.putAll cells).put g d := by
  induction cells generalizing r with
  | nil => rfl
  | cons p rest ih =>
      rw [List.map_cons, List.mem_cons, not_or] at hg
      rw [putAll_cons, putAll_cons, put_comm r hg.1, ih _ hg.2]

/-- Cells written to different places may be written in either order. -/
theorem putAll_comm (r : Registry ε)
    (hdisjoint : ∀ g, g ∈ cells.map Prod.fst → g ∉ more.map Prod.fst) :
    (r.putAll cells).putAll more = (r.putAll more).putAll cells := by
  induction cells generalizing r with
  | nil => rfl
  | cons p rest ih =>
      have hp : p.1 ∉ more.map Prod.fst := hdisjoint p.1 (by simp)
      have hrest : ∀ g, g ∈ rest.map Prod.fst → g ∉ more.map Prod.fst :=
        fun g hg => hdisjoint g (List.mem_cons_of_mem _ hg)
      rw [putAll_cons, putAll_cons, ih _ hrest, putAll_put r hp]

/-! ## Dispatch -/

/-- The cells on an instrument, in order of registration. -/
def cellsOn (r : Registry ε) (i : InstrumentId) : List (Handle × Cell ε) :=
  (r.handlesOn i).filterMap fun h => (r.cell? h).map (h, ·)

theorem slotsOn_eq (r : Registry ε) (i : InstrumentId) :
    r.slotsOn i = (r.cellsOn i).map fun p => (p.1, p.2.slot) := by
  unfold Registry.slotsOn Arena.slotsOn cellsOn
  rw [List.map_filterMap]
  apply List.filterMap_congr
  intro h _
  cases hs : r.arena.get? h with
  | none => simp [cell?, hs]
  | some s => simp [cell?, hs]

theorem mem_cellsOn_iff (wf : r.WellFormed) :
    (h, c) ∈ r.cellsOn i ↔ r.cell? h = some c ∧ c.slot.instrumentId = i := by
  unfold cellsOn
  simp only [List.mem_filterMap, Option.map_eq_some_iff, Prod.mk.injEq]
  constructor
  · rintro ⟨g, hg, c', hc', rfl, rfl⟩
    refine ⟨hc', ?_⟩
    obtain ⟨s, hs, hi⟩ := (wf.arena.mem_handlesOn_iff i g).mp hg
    rw [(cell?_eq_some_iff.mp hc').1] at hs
    cases hs
    exact hi
  · rintro ⟨hc, hi⟩
    have hm := (wf.arena.mem_handlesOn_iff i h).mpr ⟨c.slot, (cell?_eq_some_iff.mp hc).1, hi⟩
    exact ⟨h, hm, c, hc, rfl, rfl⟩

theorem map_fst_cellsOn (wf : r.WellFormed) (i : InstrumentId) :
    (r.cellsOn i).map Prod.fst = r.handlesOn i := by
  unfold cellsOn
  rw [List.map_filterMap]
  have hsome : ∀ h ∈ r.handlesOn i, ((r.cell? h).map (h, ·)).map Prod.fst = some h := by
    intro h hh
    obtain ⟨s, hs, _⟩ := (wf.arena.mem_handlesOn_iff i h).mp hh
    simp [cell?, hs]
  rw [List.filterMap_congr hsome, List.filterMap_some]

theorem holds_cellsOn (wf : r.WellFormed) (i : InstrumentId) : r.Holds (r.cellsOn i) where
  nodup := by
    rw [map_fst_cellsOn wf]
    exact wf.arena.handlesOn_nodup i
  cell := fun _ _ hm => ((mem_cellsOn_iff wf).mp hm).1

/-- Two estimators on one instrument go by different names. -/
theorem names_cellsOn_nodup (wf : r.WellFormed) (i : InstrumentId) :
    ((r.cellsOn i).map (·.2.slot.alphaId)).Nodup := by
  have hcells : (r.cellsOn i).Nodup := (holds_cellsOn wf i).nodup.of_map _
  apply hcells.map_on
  rintro ⟨g, c⟩ hg ⟨h, d⟩ hh heq
  obtain ⟨hgc, hgi⟩ := (mem_cellsOn_iff wf).mp hg
  obtain ⟨hhd, hhi⟩ := (mem_cellsOn_iff wf).mp hh
  have hkey : c.slot.key = d.slot.key := SlotKey.mk.injEq .. ▸ ⟨heq, hgi.trans hhi.symm⟩
  have hgh := wf.arena.eq_of_key_eq (cell?_eq_some_iff.mp hgc).1 (cell?_eq_some_iff.mp hhd).1 hkey
  subst hgh
  rw [hgc] at hhd
  rw [Option.some.inj hhd]

/-- Feeding an event to the slots of cells offers it to each cell and writes the
cells back. -/
theorem feedAll_eq [Estimator ε] [Solitary ε] (event : MarketEvent) (hh : r.Holds cells) :
    (feedAll event (cells.map fun p => (p.1, p.2.slot)) r).report = reportOn event cells ∧
      (feedAll event (cells.map fun p => (p.1, p.2.slot)) r).registry =
        r.putAll (offerAll event cells) := by
  induction cells generalizing r with
  | nil => exact ⟨rfl, rfl⟩
  | cons p rest ih =>
      have hp := hh.cell p.1 p.2 List.mem_cons_self
      simp only [List.map_cons, feedAll]
      by_cases ha : p.2.slot.accepts event = true
      · rw [if_pos ha]
        obtain ⟨hresult, hregistry⟩ := run_eq hp event
        have hoffer : p.2.offer event = (some (p.2.feed event).1, (p.2.feed event).2) := by
          rw [Cell.offer, if_pos ha]
          rfl
        rw [hresult, hregistry]
        obtain ⟨hreport, hrest⟩ := ih (hh.put (p.2.feed event).2)
        refine ⟨?_, ?_⟩
        · simp only [hreport, reportOn, List.foldr_cons, hoffer]
          rfl
        · simp only [hrest, offerAll, List.map_cons, hoffer, putAll_cons]
      · rw [if_neg ha]
        have hoffer : p.2.offer event = (none, p.2) := by rw [Cell.offer, if_neg ha]
        obtain ⟨hreport, hrest⟩ := ih hh.tail
        refine ⟨?_, ?_⟩
        · simp only [hreport, reportOn, List.foldr_cons, hoffer]
          rfl
        · simp only [hrest, offerAll, List.map_cons, hoffer, putAll_cons, put_self hp]

/-- A dispatch offers its event to every cell on the instrument. -/
theorem dispatch_eq [Estimator ε] [Solitary ε] (wf : r.WellFormed) (event : MarketEvent) :
    (r.dispatch event).report = reportOn event (r.cellsOn event.instrumentId) ∧
      (r.dispatch event).registry =
        r.putAll (offerAll event (r.cellsOn event.instrumentId)) := by
  unfold dispatch
  rw [slotsOn_eq]
  exact feedAll_eq event (holds_cellsOn wf _)

end Registry

end MarketSignals
