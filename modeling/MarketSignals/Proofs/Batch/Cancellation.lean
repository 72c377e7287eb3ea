import Mathlib.Order.Bounds.Defs
import MarketSignals.Proofs.Batch.Rows

/-!
# Batches that are cancelled

A raised flag ends a batch before the next row that starts a chunk.  What has been
done by then is what the rows in front of that one do by themselves, and if there
is no such row the flag has come too late.

## Main definitions

* `Moment` — when the flag goes up.
* `Moment.Cut` — the row that would be the first one left out.

## Main results

* `runRows_cut` — a run that is cut.
* `cancellation_cuts_at_chunk` — the cut of a batch, for every moment.
-/

namespace MarketSignals

/-- When a cancellation flag goes up. -/
inductive Moment where
  | beforeFirstRow
  /-- While this row is processed. -/
  | during (row : Nat)
  deriving Repr, DecidableEq

namespace Moment

/-- Before which row a batch is cut, in chunks of the given length: before the first
one, or before the next that starts a chunk. -/
def Cut (chunk : Nat) : Moment → Nat → Prop
  | beforeFirstRow, k => k = 0
  | during row, k => IsLeast {n | chunk ∣ n ∧ row < n} k

/-- Every moment has its cut. -/
theorem cut_during {chunk : Nat} (hchunk : 0 < chunk) (row : Nat) :
    (during row).Cut chunk ((row / chunk + 1) * chunk) := by
  have hdiv : chunk * (row / chunk) + row % chunk = row := Nat.div_add_mod row chunk
  have hmod : row % chunk < chunk := Nat.mod_lt row hchunk
  constructor
  · refine ⟨⟨row / chunk + 1, Nat.mul_comm _ _⟩, ?_⟩
    rw [Nat.add_mul, Nat.one_mul, Nat.mul_comm]
    omega
  · rintro n ⟨⟨q, rfl⟩, hlt⟩
    have hq : row / chunk < q := (Nat.div_lt_iff_lt_mul hchunk).mpr (by rwa [Nat.mul_comm])
    rw [Nat.mul_comm chunk q]
    exact Nat.mul_le_mul_right chunk hq

end Moment

namespace Registry

variable {ε : Type} [Estimator ε] {r : Registry ε} {b : Batch} {cancel : Cancellation}
  {chunk k : Nat}

/-- The flag goes up at a moment and stays up: on a row before the moment it is
down, on a row after it it is up. -/
def RaisedAt (r : Registry ε) (cancel : Cancellation) (events : List MarketEvent) :
    Moment → Prop
  | .beforeFirstRow => r.flagUp cancel events 0 = true
  | .during row => ∀ n < events.length, r.flagUp cancel events n = true ↔ row < n

/-- No chunk in front of the cut begins with the flag up. -/
theorem RaisedAt.down {events : List MarketEvent} {moment : Moment}
    (hraised : r.RaisedAt cancel events moment) (hcut : moment.Cut chunk k) {n : Nat}
    (hn : n < k) (hlength : n < events.length) (hchunk : n % chunk = 0) :
    r.flagUp cancel events n = false := by
  cases moment with
  | beforeFirstRow =>
      have hzero : k = 0 := hcut
      omega
  | during row =>
      rw [Bool.eq_false_iff]
      intro hup
      have hrow : row < n := (hraised n hlength).mp hup
      have hle : k ≤ n := hcut.2 ⟨Nat.dvd_of_mod_eq_zero hchunk, hrow⟩
      omega

/-- The cut starts a chunk, and there the flag is up. -/
theorem RaisedAt.up {events : List MarketEvent} {moment : Moment}
    (hraised : r.RaisedAt cancel events moment) (hcut : moment.Cut chunk k)
    (hlength : k < events.length) : k % chunk = 0 ∧ r.flagUp cancel events k = true := by
  cases moment with
  | beforeFirstRow =>
      have hzero : k = 0 := hcut
      subst hzero
      exact ⟨Nat.zero_mod chunk, hraised⟩
  | during row =>
      obtain ⟨hdvd, hrow⟩ := hcut.1
      exact ⟨Nat.mod_eq_zero_of_dvd hdvd, (hraised k hlength).mpr hrow⟩

/-- A run ends before a row that starts a chunk if the flag is up. -/
theorem runRows_stop {requested : Bool} {row : Nat} (event : MarketEvent)
    (rest : List MarketEvent) (r : Registry ε) (hchunk : row % chunk = 0)
    (hstop : cancel.stopsAt requested row = true) :
    r.runRows chunk cancel row requested (event :: rest) = ({ cancelled := true }, r) := by
  rw [runRows, if_pos]
  rw [hstop, Bool.and_true, decide_eq_true_eq]
  exact hchunk

/-- A run that is cut before row `k` has done what the rows in front of it do. -/
theorem runRows_cut {events : List MarketEvent} (hlength : k < events.length)
    (hchunk : k % chunk = 0) (hup : r.flagUp cancel events k = true)
    (hdown : ∀ n < k, n % chunk = 0 → r.flagUp cancel events n = false) :
    r.runRows chunk cancel 0 false events =
      ({ r.reportEach (events.take k) with cancelled := true }, r.afterEach (events.take k)) := by
  have hfirst : (events.take k).length = k := by
    rw [List.length_take]
    omega
  obtain ⟨event, rest, hrest⟩ : ∃ event rest, events.drop k = event :: rest :=
    ⟨_, _, List.drop_eq_getElem_cons hlength⟩
  have happend := runRows_append chunk cancel false 0 (events.take k) (events.drop k) r
  simp only [Nat.zero_add, Bool.false_or, List.take_append_drop, hfirst] at happend
  rw [happend ?_, hrest, runRows_stop event rest _ hchunk hup]
  · simp only [BatchReport.recordAll_cancelled, reportEach]
  · intro n hn hn0
    rw [List.take_take, Nat.min_eq_left (Nat.le_of_lt hn)]
    exact hdown n hn hn0

/-- Cancellation cuts a batch at the start of a chunk and nowhere else.  Let the
flag go up at some moment, and let `k` be the row before which that cuts the batch.

1. If there is a row `k`, the report is the one on the first `k` rows run by
   themselves, marked as cancelled, and the registry is the one they leave.
2. If there is none, report and registry are those of the batch that nobody
   cancels. -/
theorem cancellation_cuts_at_chunk (hsound : ¬ b.Flawed (r.slotsOn b.instrumentId))
    (chunkSize : Nat) {moment : Moment} (hraised : r.RaisedAt cancel b.events moment)
    (hcut : moment.Cut (max chunkSize 1) k) :
    (k < b.size → ∃ report r', r.runBatch (b.take k) chunkSize .never = (.ok report, r') ∧
      report.rowsProcessed = k ∧
        r.runBatch b chunkSize cancel = (.ok { report with cancelled := true }, r')) ∧
    (b.size ≤ k → ∃ report r', r.runBatch b chunkSize .never = (.ok report, r') ∧
      report.cancelled = false ∧ r.runBatch b chunkSize cancel = (.ok report, r')) := by
  have hlength : b.events.length = b.size := Batch.length_events hsound
  change moment.Cut (chunkLength chunkSize) k at hcut
  constructor
  · intro hk
    obtain ⟨hchunk, hup⟩ := hraised.up hcut (by rwa [hlength])
    have hdown : ∀ n < k, n % chunkLength chunkSize = 0 →
        r.flagUp cancel b.events n = false := by
      intro n hn hn0
      exact hraised.down hcut hn (by omega) hn0
    have hfirst := runBatch_of_down (Batch.not_flawed_take hsound k) chunkSize .never
      fun _ _ => rfl
    rw [Batch.events_take hsound] at hfirst
    refine ⟨_, _, hfirst, ?_, ?_⟩
    · rw [rowsProcessed_reportEach, List.length_take]
      omega
    · rw [runBatch_of_sound hsound, runRows_cut (by rwa [hlength]) hchunk hup hdown]
  · intro hk
    have hdown : ∀ n < b.events.length, n % chunkLength chunkSize = 0 →
        r.flagUp cancel b.events n = false := by
      intro n hn hn0
      exact hraised.down hcut (by omega) hn hn0
    refine ⟨_, _, runBatch_of_down hsound chunkSize .never fun _ _ => rfl, rfl, ?_⟩
    rw [runBatch_of_sound hsound, runRows_of_down _ _ b.events r hdown]

/-! ### A flag that is raised from outside -/

/-- The estimators of the engine do not ask to cancel anything. -/
theorem cancelled_feedAll_alpha (event : MarketEvent) (slots : List (Handle × Slot Alpha))
    (r : Registry Alpha) : (feedAll event slots r).cancelled = false := by
  induction slots generalizing r with
  | nil => rfl
  | cons p rest ih =>
      have hrun : (r.run p.1 p.2 event).cancelled = false := by
        unfold run
        split
        · rfl
        · dsimp only
          split <;> rfl
      simp only [feedAll]
      split
      · simp only [hrun, ih, Bool.or_false]
      · exact ih r

theorem requestsCancel_alpha (r : Registry Alpha) (events : List MarketEvent) :
    r.requestsCancel events = false := by
  induction events generalizing r with
  | nil => rfl
  | cons event rest ih =>
      have hhead : (r.dispatch event).cancelled = false := cancelled_feedAll_alpha event _ r
      simp only [requestsCancel, dispatchEach, List.any_cons, hhead, Bool.false_or]
      exact ih (r.dispatch event).registry

/-- A flag that somebody raises while the given row is processed. -/
def outsideFlag (row : Nat) : Cancellation := .watched fun n => decide (row < n)

theorem raisedAt_outsideFlag (r : Registry Alpha) (events : List MarketEvent) (row : Nat) :
    r.RaisedAt (outsideFlag row) events (.during row) := by
  intro n _
  simp [flagUp, outsideFlag, Cancellation.stopsAt, requestsCancel_alpha]

/-- An order-flow estimator on `X`. -/
def flowSlot : Slot Alpha where
  alphaId := ⟨"flow"⟩
  instrumentId := ⟨"X"⟩
  kind := .ofi
  requiredFields := [.bidSize, .askSize]
  estimator := .ofi (.start 10 .manual)
  disabled := false

theorem mixedBatch_sound_flow :
    ¬ mixedBatch.Flawed ((solo flowSlot).slotsOn mixedBatch.instrumentId) := by
  have hslots : (solo flowSlot).slotsOn mixedBatch.instrumentId = [(⟨0, 0⟩, flowSlot)] :=
    slotsOn_solo flowSlot
  rw [hslots, ← Batch.validateSchema_eq_ok_iff]
  rfl

/-- In chunks of two, a flag that goes up on the last but one of five rows cuts the
batch before the last row, and one that goes up on the last row comes too late. -/
theorem cancellation_cuts_at_chunk_mixed :
    (∃ report r', (solo flowSlot).runBatch (mixedBatch.take 4) 2 .never = (.ok report, r') ∧
      report.rowsProcessed = 4 ∧ (solo flowSlot).runBatch mixedBatch 2 (outsideFlag 3) =
        (.ok { report with cancelled := true }, r')) ∧
    ∃ report r', (solo flowSlot).runBatch mixedBatch 2 .never = (.ok report, r') ∧
      report.cancelled = false ∧
        (solo flowSlot).runBatch mixedBatch 2 (outsideFlag 4) = (.ok report, r') := by
  have hthree := raisedAt_outsideFlag (solo flowSlot) mixedBatch.events 3
  have hfour := raisedAt_outsideFlag (solo flowSlot) mixedBatch.events 4
  have hcut : (Moment.during 3).Cut (max 2 1) 4 := Moment.cut_during (by decide) 3
  have hlate : (Moment.during 4).Cut (max 2 1) 6 := Moment.cut_during (by decide) 4
  exact ⟨(cancellation_cuts_at_chunk mixedBatch_sound_flow 2 hthree hcut).1 (by decide),
    (cancellation_cuts_at_chunk mixedBatch_sound_flow 2 hfour hlate).2 (by decide)⟩

end Registry

end MarketSignals
