import MarketSignals.Engine.Basic
import MarketSignals.Proofs.Batch.Columns
import MarketSignals.Scripted

/-!
# Batches as dispatches

Running a batch is dispatching the events of its rows one after the other: the
same outputs, the same failures, the same registry.  The chunk length only says
where the cancellation flag is looked at, so it matters only where the flag goes
up.

The estimators may be of any kind.  One may remove others while the batch runs,
and one may ask for the batch to be cancelled.

## Main definitions

* `dispatchEach`, `afterEach` — events dispatched one after the other.
* `BatchReport.ofRows` — the reports on single rows as one.
* `flagUp` — the cancellation flag as it is before a row.

## Main results

* `runRows_append` — rows before which the flag is down are dispatched, and the
  run goes on behind them.
* `batch_eq_dispatches` — when a batch is refused, and what it is otherwise.
-/

namespace MarketSignals

/-! ## Reports -/

namespace BatchReport

/-- The reports on the rows of a batch as one report: all outputs in order, and
all failures in order with the row of each. -/
def ofRows (rows : List DispatchReport) : BatchReport where
  outputs := rows.flatMap (·.outputs)
  failures := rows.zipIdx.flatMap fun (d, row) =>
    d.failures.map fun f => ⟨row, f.alphaId, .ofEngine f.error⟩
  rowsProcessed := rows.length
  cancelled := false

/-- The report with the outcomes of the rows from `row` on in front. -/
def recordAll (b : BatchReport) (row : Nat) : List DispatchReport → BatchReport
  | [] => b
  | d :: rest => (b.recordAll (row + 1) rest).record row d

theorem recordAll_eq (b : BatchReport) (row : Nat) (rows : List DispatchReport) :
    b.recordAll row rows =
      { outputs := rows.flatMap (·.outputs) ++ b.outputs
        failures := ((rows.zipIdx row).flatMap fun (d, row) =>
          d.failures.map fun f => ⟨row, f.alphaId, .ofEngine f.error⟩) ++ b.failures
        rowsProcessed := b.rowsProcessed + rows.length
        cancelled := b.cancelled } := by
  induction rows generalizing row with
  | nil => rfl
  | cons d rest ih =>
      simp only [recordAll, ih, record, List.flatMap_cons, List.zipIdx_cons, List.append_assoc,
        List.length_cons, Nat.add_assoc]

/-- Rows in front of nothing are all there is. -/
theorem recordAll_empty (rows : List DispatchReport) :
    ({} : BatchReport).recordAll 0 rows = ofRows rows := by
  rw [recordAll_eq]
  simp [ofRows]

/-- Rows in front of a run that has ended early. -/
theorem recordAll_cancelled (rows : List DispatchReport) :
    ({ cancelled := true } : BatchReport).recordAll 0 rows =
      { ofRows rows with cancelled := true } := by
  rw [recordAll_eq]
  simp [ofRows]

end BatchReport

/-! ## Events one after the other -/

namespace Registry

variable {ε : Type} [Estimator ε] {r : Registry ε} {b : Batch} {cancel : Cancellation}
  {chunk : Nat}

/-- What comes of dispatching events one after the other. -/
def dispatchEach (r : Registry ε) : List MarketEvent → List (Dispatched ε)
  | [] => []
  | event :: rest => r.dispatch event :: (r.dispatch event).registry.dispatchEach rest

/-- The registry that events leave when they are dispatched one after the other. -/
def afterEach (r : Registry ε) (events : List MarketEvent) : Registry ε :=
  events.foldl (fun r event => (r.dispatch event).registry) r

/-- The report on a batch whose rows are dispatched one after the other. -/
def reportEach (r : Registry ε) (events : List MarketEvent) : BatchReport :=
  .ofRows ((r.dispatchEach events).map (·.report))

/-- Whether an estimator asks to cancel the batch on one of these events. -/
def requestsCancel (r : Registry ε) (events : List MarketEvent) : Bool :=
  (r.dispatchEach events).any (·.cancelled)

/-- Whether the cancellation flag is up when the turn of a row comes: raised by
an estimator on a row before, or from outside. -/
def flagUp (r : Registry ε) (cancel : Cancellation) (events : List MarketEvent) (row : Nat) :
    Bool :=
  cancel.stopsAt (r.requestsCancel (events.take row)) row

@[simp] theorem flagUp_never (r : Registry ε) (events : List MarketEvent) (row : Nat) :
    r.flagUp .never events row = false := rfl

theorem length_dispatchEach (r : Registry ε) (events : List MarketEvent) :
    (r.dispatchEach events).length = events.length := by
  induction events generalizing r with
  | nil => rfl
  | cons event rest ih => simp only [dispatchEach, List.length_cons, ih]

@[simp] theorem rowsProcessed_reportEach (r : Registry ε) (events : List MarketEvent) :
    (r.reportEach events).rowsProcessed = events.length := by
  simp only [reportEach, BatchReport.ofRows, List.length_map, length_dispatchEach]

/-- A row at which the run does not stop is dispatched. -/
theorem runRows_cons {requested : Bool} {row : Nat} (event : MarketEvent)
    (rest : List MarketEvent) (r : Registry ε)
    (hgo : row % chunk = 0 → cancel.stopsAt requested row = false) :
    r.runRows chunk cancel row requested (event :: rest) =
      let later := (r.dispatch event).registry.runRows chunk cancel (row + 1)
        (requested || (r.dispatch event).cancelled) rest
      (later.1.record row (r.dispatch event).report, later.2) := by
  have hstop : ¬ (decide (row % chunk = 0) && cancel.stopsAt requested row) = true := by
    intro h
    rw [Bool.and_eq_true, decide_eq_true_eq] at h
    rw [hgo h.1] at h
    cases h.2
  rw [runRows, if_neg hstop]

/-- Rows before which the flag is down are dispatched, and the run goes on behind
them.  `requested` is what estimators have asked for before. -/
theorem runRows_append (chunk : Nat) (cancel : Cancellation) (requested : Bool) (row : Nat)
    (first rest : List MarketEvent) (r : Registry ε)
    (hdown : ∀ j < first.length, (row + j) % chunk = 0 →
      cancel.stopsAt (requested || r.requestsCancel (first.take j)) (row + j) = false) :
    r.runRows chunk cancel row requested (first ++ rest) =
      let later := (r.afterEach first).runRows chunk cancel (row + first.length)
        (requested || r.requestsCancel first) rest
      (later.1.recordAll row ((r.dispatchEach first).map (·.report)), later.2) := by
  induction first generalizing r row requested with
  | nil => simp [afterEach, requestsCancel, dispatchEach, BatchReport.recordAll]
  | cons event first ih =>
      have hhead : row % chunk = 0 → cancel.stopsAt requested row = false := by
        intro hchunk
        have hfalse := hdown 0 (by simp) hchunk
        simpa only [List.take_zero, requestsCancel, dispatchEach, List.any_nil, Bool.or_false,
          Nat.add_zero] using hfalse
      have htail : ∀ j < first.length, (row + 1 + j) % chunk = 0 →
          cancel.stopsAt ((requested || (r.dispatch event).cancelled) ||
            (r.dispatch event).registry.requestsCancel (first.take j)) (row + 1 + j) = false := by
        intro j hj hchunk
        have hrow : row + 1 + j = row + (j + 1) := by omega
        rw [hrow] at hchunk ⊢
        have hfalse := hdown (j + 1) (by simpa using hj) hchunk
        simpa only [List.take_succ_cons, requestsCancel, dispatchEach, List.any_cons,
          Bool.or_assoc] using hfalse
      have hlength : row + (event :: first).length = row + 1 + first.length := by
        simp only [List.length_cons]
        omega
      rw [List.cons_append, runRows_cons event _ r hhead, ih _ _ _ htail, hlength]
      simp only [afterEach, requestsCancel, dispatchEach, List.foldl_cons, List.any_cons,
        List.map_cons, BatchReport.recordAll, Bool.or_assoc]

/-- Rows before which the flag is down are dispatched. -/
theorem runRows_of_down (chunk : Nat) (cancel : Cancellation) (events : List MarketEvent)
    (r : Registry ε)
    (hdown : ∀ row < events.length, row % chunk = 0 → r.flagUp cancel events row = false) :
    r.runRows chunk cancel 0 false events = (r.reportEach events, r.afterEach events) := by
  have happend := runRows_append chunk cancel false 0 events [] r
  simp only [Nat.zero_add, Bool.false_or, List.append_nil] at happend
  rw [happend hdown]
  simp only [runRows, BatchReport.recordAll_empty, reportEach]

/-! ## Batches -/

/-- A flawed batch is refused, and the registry stays as it was. -/
theorem runBatch_of_flawed (hflawed : b.Flawed (r.slotsOn b.instrumentId)) (chunkSize : Nat)
    (cancel : Cancellation) : ∃ fault, r.runBatch b chunkSize cancel = (.error fault, r) := by
  unfold runBatch
  cases hschema : b.validateSchema (r.infosOn b.instrumentId) with
  | error fault => exact ⟨fault, rfl⟩
  | ok u => exact absurd hflawed (Batch.validateSchema_eq_ok_iff.mp hschema)

/-- A batch that is not flawed is run row by row. -/
theorem runBatch_of_sound (hsound : ¬ b.Flawed (r.slotsOn b.instrumentId)) (chunkSize : Nat)
    (cancel : Cancellation) :
    r.runBatch b chunkSize cancel =
      let ran := r.runRows (chunkLength chunkSize) cancel 0 false b.events
      (.ok ran.1, ran.2) := by
  have hschema : b.validateSchema (r.infosOn b.instrumentId) = .ok () :=
    Batch.validateSchema_eq_ok_iff.mpr hsound
  unfold runBatch
  rw [hschema]

/-- A batch that nobody cancels is the dispatches of its rows. -/
theorem runBatch_of_down (hsound : ¬ b.Flawed (r.slotsOn b.instrumentId)) (chunkSize : Nat)
    (cancel : Cancellation)
    (hdown : ∀ row < b.size, r.flagUp cancel b.events row = false) :
    r.runBatch b chunkSize cancel =
      (.ok (r.reportEach b.events), r.afterEach b.events) := by
  have hrows := runRows_of_down (chunkLength chunkSize) cancel b.events r
    fun row hrow _ => hdown row (by rwa [← Batch.length_events hsound])
  rw [runBatch_of_sound hsound, hrows]

/-- A job that nobody cancels does what the call does that runs the batch at
once. -/
theorem runBatchJob_of_down {e : Engine ε} {job : BatchJob}
    (hjob : e.submitBatch true b = .ok job)
    (hdown : ∀ row < b.size, e.registry.flagUp cancel b.events row = false) :
    e.runBatchJob job cancel = e.updateBatch b := by
  unfold Engine.submitBatch at hjob
  by_cases hshut : e.isShutDown = true
  · rw [if_pos hshut] at hjob
    cases hjob
  · rw [if_neg hshut, if_pos rfl] at hjob
    cases hjob
    have hsame : e.registry.runBatch b e.batch.chunkSize cancel =
        e.registry.runBatch b e.batch.chunkSize .never := by
      by_cases hflawed : b.Flawed (e.registry.slotsOn b.instrumentId)
      · unfold runBatch
        cases hschema : b.validateSchema (e.registry.infosOn b.instrumentId) with
        | error fault => rfl
        | ok u => exact absurd hflawed (Batch.validateSchema_eq_ok_iff.mp hschema)
      · rw [runBatch_of_down hflawed _ _ hdown, runBatch_of_down hflawed _ .never fun _ _ => rfl]
    unfold Engine.runBatchJob Engine.updateBatch Engine.call
    rw [hsame, if_neg hshut]

/-- A batch is its rows dispatched one after the other.  In every registry:

1. a flawed batch is refused as invalid input and the registry stays as it was;
2. any other batch gives every row an event, inside the bounds of all columns, and
   if the flag is never up, then for every chunk length its report is that of the
   events dispatched in order and its registry the one these dispatches leave;
3. so does the job that the batch can be handed over as. -/
theorem batch_eq_dispatches (r : Registry ε) (b : Batch) :
    (b.Flawed (r.slotsOn b.instrumentId) → ∀ chunkSize cancel,
      ∃ fault, r.runBatch b chunkSize cancel = (.error fault, r) ∧
        fault.toHostError.code = .invalidInput) ∧
    (¬ b.Flawed (r.slotsOn b.instrumentId) →
      b.Lists b.events ∧ (r.reportEach b.events).rowsProcessed = b.size ∧
        (r.reportEach b.events).cancelled = false ∧
          ∀ chunkSize cancel, (∀ row < b.size, r.flagUp cancel b.events row = false) →
            r.runBatch b chunkSize cancel = (.ok (r.reportEach b.events), r.afterEach b.events)) ∧
    ∀ (e : Engine ε) (job : BatchJob) (cancel : Cancellation), e.registry = r →
      e.submitBatch true b = .ok job →
        (∀ row < b.size, r.flagUp cancel b.events row = false) →
          e.runBatchJob job cancel = e.updateBatch b := by
  refine ⟨?_, ?_, ?_⟩
  · intro hflawed chunkSize cancel
    obtain ⟨fault, hrefused⟩ := runBatch_of_flawed hflawed chunkSize cancel
    exact ⟨fault, hrefused, rfl⟩
  · intro hsound
    have hrows : (r.reportEach b.events).rowsProcessed = b.size := by
      rw [rowsProcessed_reportEach, Batch.length_events hsound]
    exact ⟨Batch.lists_events hsound, hrows, rfl,
      runBatch_of_down hsound⟩
  · rintro e job cancel rfl hjob hdown
    exact runBatchJob_of_down hjob hdown

/-! ### A registry with one estimator -/

/-- A registry in which one estimator is registered. -/
def solo {δ : Type} (s : Slot δ) : Registry δ where
  arena :=
    { entries := #[⟨0, some s⟩]
      free := []
      byKey := (∅ : Std.ExtHashMap SlotKey Handle).insert s.key ⟨0, 0⟩
      byInstrument :=
        (∅ : Std.ExtHashMap InstrumentId (List Handle)).insert s.instrumentId [⟨0, 0⟩] }
  latest := ∅

theorem slotsOn_solo {δ : Type} (s : Slot δ) : (solo s).slotsOn s.instrumentId = [(⟨0, 0⟩, s)] := by
  have hhandles : (solo s).arena.handlesOn s.instrumentId = [⟨0, 0⟩] :=
    Std.ExtHashMap.getD_insert_self
  have hget : (solo s).arena.get? ⟨0, 0⟩ = some s := rfl
  unfold slotsOn Arena.slotsOn
  rw [hhandles]
  simp [hget]

/-- An estimator on `X` that reads trades, fails on its second event and asks to
cancel the batch on its third. -/
def tradeSlot : Slot Scripted where
  alphaId := ⟨"a"⟩
  instrumentId := ⟨"X"⟩
  kind := .garch
  requiredFields := [.tradePrice]
  estimator :=
    { kind := .garch, requiredFields := [.tradePrice]
      script := [.succeed, .fail .shutDown, .cancelBatch] }
  disabled := false

/-- Two trades, a quote, and two trades. -/
def mixedBatch : Batch where
  instrumentId := ⟨"X"⟩
  timestamps := #[1, 1, 2, 3, 3]
  bidPrice := #[99, 99, 99, 98, 98]
  bidSize := #[1, 2, 3, 4, 5]
  askPrice := #[101, 101, 101, 100, 100]
  askSize := #[5, 4, 3, 2, 1]
  tradePrice := some #[100, 100.5, 0 / 0, 99, 99]
  tradeSize := some #[2, 2, 0 / 0, 2, 2]

/-- The same rows without the trades. -/
def quotesOnly : Batch := { mixedBatch with tradePrice := none, tradeSize := none }

theorem mixedBatch_sound : ¬ mixedBatch.Flawed ((solo tradeSlot).slotsOn mixedBatch.instrumentId) := by
  have hslots : (solo tradeSlot).slotsOn mixedBatch.instrumentId = [(⟨0, 0⟩, tradeSlot)] :=
    slotsOn_solo tradeSlot
  rw [hslots, ← Batch.validateSchema_eq_ok_iff]
  rfl

theorem batch_eq_dispatches_mixed :
    (∀ chunkSize, (solo tradeSlot).runBatch mixedBatch chunkSize .never =
      (.ok ((solo tradeSlot).reportEach mixedBatch.events),
        (solo tradeSlot).afterEach mixedBatch.events)) ∧
    ∃ fault, (solo tradeSlot).runBatch quotesOnly 2 .never = (.error fault, solo tradeSlot) ∧
      fault.toHostError.code = .invalidInput := by
  constructor
  · intro chunkSize
    have hrun := (batch_eq_dispatches (solo tradeSlot) mixedBatch).2.1 mixedBatch_sound
    exact hrun.2.2.2 chunkSize .never fun _ _ => rfl
  · have hslots : (solo tradeSlot).slotsOn quotesOnly.instrumentId = [(⟨0, 0⟩, tradeSlot)] :=
      slotsOn_solo tradeSlot
    have hflawed : quotesOnly.Flawed ((solo tradeSlot).slotsOn quotesOnly.instrumentId) := by
      rw [hslots]
      exact .noTrades List.mem_cons_self rfl rfl rfl
    exact (batch_eq_dispatches (solo tradeSlot) quotesOnly).1 hflawed 2 .never

end Registry

end MarketSignals
