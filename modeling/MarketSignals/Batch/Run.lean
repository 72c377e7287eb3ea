import MarketSignals.Batch.Columns
import MarketSignals.Registry.Dispatch

/-!
# Running a batch

The rows of a batch are dispatched one after the other.  A batch that may be
cancelled looks at its flag before every row that starts a chunk, and a raised
flag ends the run there; the rows already run stay in the report.
-/

namespace MarketSignals

/-- Whether and when a job is cancelled. -/
inductive Cancellation where
  /-- The job has no flag. -/
  | never
  /-- The job looks at a flag; `raisedBefore k` says whether somebody else has
  raised it by the time item `k` is about to be taken up. -/
  | watched (raisedBefore : Nat → Bool)

/-- Whether a job stops before item `k`; `requested` says whether an estimator has
raised the flag meanwhile. -/
def Cancellation.stopsAt (c : Cancellation) (requested : Bool) (k : Nat) : Bool :=
  match c with
  | never => false
  | watched raisedBefore => requested || raisedBefore k

/-- An estimator that failed on a row. -/
structure RowFailure where
  row : Nat
  alphaId : AlphaId
  error : HostError

/-- The outcome of a batch. -/
structure BatchReport where
  /-- Outputs in row order, and in order of registration within a row. -/
  outputs : List SignalOutput := []
  failures : List RowFailure := []
  rowsProcessed : Nat := 0
  /-- Whether the run ended before the last row. -/
  cancelled : Bool := false

/-- The report with the outcome of a row in front. -/
def BatchReport.record (b : BatchReport) (row : Nat) (d : DispatchReport) : BatchReport :=
  { outputs := d.outputs ++ b.outputs
    failures := d.failures.map (fun f => ⟨row, f.alphaId, .ofEngine f.error⟩) ++ b.failures
    rowsProcessed := b.rowsProcessed + 1
    cancelled := b.cancelled }

/-- The number of items between two looks at the flag, at least one. -/
def chunkLength (chunkSize : Nat) : Nat := max chunkSize 1

namespace Registry

variable {ε : Type} [Estimator ε]

/-- Dispatches events as rows from `row` on.  `requested` says whether an
estimator has raised the flag. -/
def runRows (chunk : Nat) (cancel : Cancellation) :
    (row : Nat) → (requested : Bool) → List MarketEvent → Registry ε → BatchReport × Registry ε
  | _, _, [], r => ({}, r)
  | row, requested, event :: rest, r =>
      if row % chunk = 0 && cancel.stopsAt requested row then ({ cancelled := true }, r)
      else
        let d := r.dispatch event
        let (report, r) := runRows chunk cancel (row + 1) (requested || d.cancelled) rest d.registry
        (report.record row d.report, r)

/-- Checks a batch against the estimators on its instrument and runs it. -/
def runBatch (r : Registry ε) (b : Batch) (chunkSize : Nat) (cancel : Cancellation) :
    Except BatchFault BatchReport × Registry ε :=
  match b.validateSchema (r.infosOn b.instrumentId) with
  | .error fault => (.error fault, r)
  | .ok () =>
      let (report, r) := r.runRows (chunkLength chunkSize) cancel 0 false b.events
      (.ok report, r)

end Registry

/-! ## JSON -/

instance : Codec RowFailure where
  encode f := Json.object
    [("row", Codec.encode f.row),
      ("alpha_id", Codec.encode f.alphaId),
      ("error", Codec.encode f.error)]
  decode? place j := do
    let r ← Json.record? ["row", "alpha_id", "error"] place j
    some {
      row := ← r.required? Nat "row"
      alphaId := ← r.required? AlphaId "alpha_id"
      error := ← r.required? HostError "error" }

instance : Codec BatchReport where
  encode b := Json.object
    [("outputs", Codec.encode b.outputs),
      ("failures", Codec.encode b.failures),
      ("rows_processed", Codec.encode b.rowsProcessed),
      ("cancelled", Codec.encode b.cancelled)]
  decode? place j := do
    let r ← Json.record? ["outputs", "failures", "rows_processed", "cancelled"] place j
    some {
      outputs := ← r.required? (List SignalOutput) "outputs"
      failures := ← r.required? (List RowFailure) "failures"
      rowsProcessed := ← r.required? Nat "rows_processed"
      cancelled := ← r.required? Bool "cancelled" }

end MarketSignals
