import MarketSignals.Proofs.Binning
import MarketSignals.Proofs.Regime.Reference

/-!
# Counting in chunks

The samples of a reference are counted chunk by chunk, and the flag is looked at before
each chunk.  A position is put together from the number of the chunk and the place in it; it
is the position in the whole list, so that neither the counts nor the sample that is found
fault with depends on the length of chunks.  A flag makes the difference between the result
and none at all, and it has to be up before the last chunk.

## Main definitions

* `inChunks` — samples in chunks.
* `countChunks` — counting, chunk by chunk.

## Main results

* `countSamples_eq_countChunks` — counting in chunks is counting all samples.
* `referenceCounts_ok_iff`, `referenceCounts_error_iff` — the result without a flag.
* `countSamples_cancelled_iff` — when a flag ends counting.
* `counted_in_chunks` — these together.
-/

namespace MarketSignals

variable {b : Binning} {chunk : ℕ} {cancel : Cancellation} {x : Float} {xs : List Float}

/-! ## Chunk by chunk -/

/-- Samples in chunks, all of which have one length but the last. -/
def inChunks (chunk : ℕ) : List Float → List (List Float)
  | [] => []
  | x :: rest => (x :: rest.take (chunk - 1)) :: inChunks chunk (rest.drop (chunk - 1))
termination_by xs => xs.length
decreasing_by
  rw [List.length_drop, List.length_cons]
  omega

/-- Counts the samples of a chunk that starts at a position, from a place in it on. -/
def countChunk (b : Binning) (start : ℕ) :
    (place : ℕ) → List Float → Array ℕ → Except CountingFault (Array ℕ)
  | _, [], counts => .ok counts
  | place, x :: rest, counts =>
      if !x.isFinite then .error (.notFinite (start + place) x)
      else countChunk b start (place + 1) rest (counts.modify (b.indexOf x) (· + 1))

/-- Counts chunks from a number on, and looks at the flag before each. -/
def countChunks (b : Binning) (chunk : ℕ) (cancel : Cancellation) :
    (number : ℕ) → List (List Float) → Array ℕ → Except CountingFault (Array ℕ)
  | _, [], counts => .ok counts
  | number, piece :: rest, counts => do
      if cancel.stopsAt false (number * chunk) then .error .cancelled
      let counts ← countChunk b (number * chunk) 0 piece counts
      countChunks b chunk cancel (number + 1) rest counts

/-! ## One sample -/

/-- Counting is stopped before a sample that starts a chunk. -/
def Stops (chunk : ℕ) (cancel : Cancellation) (position : ℕ) : Prop :=
  position % chunk = 0 ∧ cancel.stopsAt false position = true

theorem not_stops_never (chunk position : ℕ) : ¬ Stops chunk .never position :=
  fun h => Bool.false_ne_true h.2

section Steps

variable {position : ℕ} {counts : Array ℕ}

theorem countSamples_stops (h : Stops chunk cancel position) :
    countSamples b chunk cancel position (x :: xs) counts = .error .cancelled := by
  rw [countSamples, if_pos]
  rw [h.2, Bool.and_true, decide_eq_true h.1]

theorem countSamples_cons (h : ¬ Stops chunk cancel position) (hx : x.isFinite = true) :
    countSamples b chunk cancel position (x :: xs) counts =
      countSamples b chunk cancel (position + 1) xs (counts.modify (b.indexOf x) (· + 1)) := by
  rw [countSamples, if_neg, hx]
  · rfl
  · rw [Bool.and_eq_true, decide_eq_true_eq]
    exact h

theorem countSamples_notFinite (h : ¬ Stops chunk cancel position) (hx : x.isFinite = false) :
    countSamples b chunk cancel position (x :: xs) counts = .error (.notFinite position x) := by
  rw [countSamples, if_neg, hx]
  · rfl
  · rw [Bool.and_eq_true, decide_eq_true_eq]
    exact h

theorem countChunk_cons {start place : ℕ} (hx : x.isFinite = true) :
    countChunk b start place (x :: xs) counts =
      countChunk b start (place + 1) xs (counts.modify (b.indexOf x) (· + 1)) := by
  rw [countChunk, hx]
  rfl

theorem countChunk_notFinite {start place : ℕ} (hx : x.isFinite = false) :
    countChunk b start place (x :: xs) counts = .error (.notFinite (start + place) x) := by
  rw [countChunk, hx]
  rfl

end Steps

/-! ## Chunks of samples against all samples -/

/-- Within a chunk the flag is not looked at. -/
theorem countSamples_within {start place : ℕ} (hstart : start % chunk = 0) (hplace : 0 < place)
    (piece rest : List Float) (hlength : place + piece.length ≤ chunk) (counts : Array ℕ) :
    countSamples b chunk cancel (start + place) (piece ++ rest) counts =
      countChunk b start place piece counts >>=
        countSamples b chunk cancel (start + (place + piece.length)) rest := by
  induction piece generalizing place counts with
  | nil => rfl
  | cons x piece ih =>
      rw [List.length_cons] at hlength ⊢
      have hinside : ¬ Stops chunk cancel (start + place) := by
        rintro ⟨hmod, -⟩
        rw [Nat.add_mod, hstart, Nat.zero_add, Nat.mod_mod, Nat.mod_eq_of_lt (by omega)] at hmod
        omega
      rw [List.cons_append]
      cases hx : x.isFinite with
      | true =>
          rw [countSamples_cons hinside hx, countChunk_cons hx, Nat.add_assoc start place 1,
            ih (Nat.succ_pos place) (by omega), Nat.add_assoc place 1, Nat.add_comm 1]
      | false =>
          rw [countSamples_notFinite hinside hx, countChunk_notFinite hx]
          rfl

/-- Counting in chunks is counting all samples: the number of a chunk and the place in it
make up the position. -/
theorem countSamples_eq_countChunks (hchunk : 0 < chunk) (number : ℕ) (counts : Array ℕ) :
    countSamples b chunk cancel (number * chunk) xs counts =
      countChunks b chunk cancel number (inChunks chunk xs) counts := by
  induction xs using inChunks.induct chunk generalizing number counts with
  | case1 =>
      rw [inChunks]
      rfl
  | case2 x rest ih =>
      have hstart : number * chunk % chunk = 0 := Nat.mul_mod_left number chunk
      rw [inChunks, countChunks]
      by_cases hstop : cancel.stopsAt false (number * chunk) = true
      · rw [countSamples_stops ⟨hstart, hstop⟩, if_pos hstop]
        rfl
      rw [if_neg hstop]
      have hgoes : ¬ Stops chunk cancel (number * chunk) := fun h => hstop h.2
      cases hx : x.isFinite with
      | false =>
          rw [countSamples_notFinite hgoes hx, countChunk_notFinite hx]
          rfl
      | true =>
          rw [countSamples_cons hgoes hx, countChunk_cons hx]
          have hwithin : countSamples b chunk cancel (number * chunk + 1)
              (rest.take (chunk - 1) ++ rest.drop (chunk - 1))
                (counts.modify (b.indexOf x) (· + 1)) = _ :=
            countSamples_within hstart Nat.one_pos _ _ (by rw [List.length_take]; omega) _
          rw [List.take_append_drop] at hwithin
          rw [hwithin]
          refine congrArg (countChunk b _ 1 (rest.take (chunk - 1)) _ >>= ·) ?_
          funext counts
          -- a chunk that is not full is the last one
          rcases Nat.lt_or_ge rest.length chunk with hlast | hmore
          · rw [List.drop_eq_nil_of_le (by omega), inChunks]
            rfl
          · rw [← ih, List.length_take, Nat.min_eq_left (by omega), Nat.succ_mul]
            congr 1
            omega

/-! ## Without a flag -/

/-- The sample that is found fault with is at its position in the list. -/
theorem countSamples_append_notFinite {before : List Float}
    (hbefore : ∀ y ∈ before, y.isFinite = true) (hx : x.isFinite = false) (position : ℕ)
    (counts : Array ℕ) :
    countSamples b chunk .never position (before ++ x :: xs) counts =
      .error (.notFinite (position + before.length) x) := by
  induction before generalizing position counts with
  | nil => exact countSamples_notFinite (not_stops_never _ _) hx
  | cons y before ih =>
      rw [List.cons_append, countSamples_cons (not_stops_never _ _) (hbefore y List.mem_cons_self),
        ih (fun z hz => hbefore z (List.mem_cons_of_mem y hz)), List.length_cons, Nat.add_assoc,
        Nat.add_comm 1]

/-- There is a first sample that is not finite, or none. -/
theorem finite_or_first (xs : List Float) :
    (∀ x ∈ xs, x.isFinite = true) ∨
      ∃ p x, xs[p]? = some x ∧ x.isFinite = false ∧ ∀ y ∈ xs.take p, y.isFinite = true := by
  induction xs with
  | nil => exact .inl fun x hx => absurd hx List.not_mem_nil
  | cons x xs ih =>
      cases hx : x.isFinite with
      | false => exact .inr ⟨0, x, rfl, hx, fun y hy => absurd hy List.not_mem_nil⟩
      | true =>
          rcases ih with hall | ⟨p, z, hz, hbad, hbefore⟩
          · exact .inl (List.forall_mem_cons.mpr ⟨hx, hall⟩)
          · exact .inr ⟨p + 1, z, hz, hbad, List.forall_mem_cons.mpr ⟨hx, hbefore⟩⟩

theorem referenceCounts_of_first {p : ℕ} (chunkSize : ℕ) (hp : xs[p]? = some x)
    (hx : x.isFinite = false) (hbefore : ∀ y ∈ xs.take p, y.isFinite = true) :
    referenceCounts b xs chunkSize .never = .error (.notFinite p x) := by
  obtain ⟨hlength, hget⟩ := List.getElem?_eq_some_iff.mp hp
  have hsplit : xs = xs.take p ++ x :: xs.drop (p + 1) := by
    rw [← hget, ← List.drop_eq_getElem_cons hlength, List.take_append_drop]
  unfold referenceCounts
  rw [hsplit, countSamples_append_notFinite hbefore hx, Nat.zero_add, List.length_take,
    Nat.min_eq_left hlength.le]
  rfl

/-- The counts are those of the bins. -/
theorem referenceCounts_ok_iff (chunkSize : ℕ) (counts : List ℕ) :
    referenceCounts b xs chunkSize .never = .ok counts ↔
      (∀ x ∈ xs, x.isFinite = true) ∧
        counts = List.ofFn fun bin : Fin b.nBins => xs.countP (b.indexOf · == bin) := by
  have hcounts : (Histogram.ofSamples b xs).counts.toList =
      List.ofFn fun bin : Fin b.nBins => xs.countP (b.indexOf · == bin) := Array.toList_ofFn
  rcases finite_or_first xs with hall | ⟨p, x, hp, hx, hbefore⟩
  · rw [referenceCounts_eq hall, hcounts, and_iff_right hall, Except.ok.injEq, eq_comm]
  · rw [referenceCounts_of_first chunkSize hp hx hbefore]
    refine iff_of_false (fun h => ?_) (fun h => ?_)
    · cases h
    · rw [h.1 x (List.mem_of_getElem? hp)] at hx
      cases hx

/-- The fault is that of the first sample that is not finite. -/
theorem referenceCounts_error_iff (chunkSize : ℕ) (fault : CountingFault) :
    referenceCounts b xs chunkSize .never = .error fault ↔
      ∃ p x, fault = .notFinite p x ∧ xs[p]? = some x ∧ x.isFinite = false ∧
        ∀ y ∈ xs.take p, y.isFinite = true := by
  constructor
  · intro h
    rcases finite_or_first xs with hall | ⟨p, x, hp, hx, hbefore⟩
    · rw [referenceCounts_eq hall] at h
      cases h
    · rw [referenceCounts_of_first chunkSize hp hx hbefore] at h
      cases h
      exact ⟨p, x, rfl, hp, hx, hbefore⟩
  · rintro ⟨p, x, rfl, hp, hx, hbefore⟩
    exact referenceCounts_of_first chunkSize hp hx hbefore

/-! ## With a flag -/

/-- A flag ends counting or makes no difference. -/
theorem countSamples_cancelled_or (position : ℕ) (counts : Array ℕ) :
    countSamples b chunk cancel position xs counts = .error .cancelled ∨
      countSamples b chunk cancel position xs counts =
        countSamples b chunk .never position xs counts := by
  induction xs generalizing position counts with
  | nil => exact .inr rfl
  | cons x xs ih =>
      by_cases hstop : Stops chunk cancel position
      · exact .inl (countSamples_stops hstop)
      cases hx : x.isFinite with
      | false =>
          right
          rw [countSamples_notFinite hstop hx, countSamples_notFinite (not_stops_never _ _) hx]
      | true =>
          rw [countSamples_cons hstop hx, countSamples_cons (not_stops_never _ _) hx]
          exact ih _ _

/-- It ends counting before the first sample of a chunk, if all samples before are finite. -/
theorem countSamples_cancelled_iff (position : ℕ) (counts : Array ℕ) :
    countSamples b chunk cancel position xs counts = .error .cancelled ↔
      ∃ p < xs.length, Stops chunk cancel (position + p) ∧
        ∀ y ∈ xs.take p, y.isFinite = true := by
  induction xs generalizing position counts with
  | nil =>
      refine iff_of_false (fun h => by cases h) ?_
      rintro ⟨p, hp, -⟩
      exact absurd hp (Nat.not_lt_zero p)
  | cons x xs ih =>
      by_cases hstop : Stops chunk cancel position
      · exact iff_of_true (countSamples_stops hstop)
          ⟨0, Nat.succ_pos _, hstop, fun y hy => absurd hy List.not_mem_nil⟩
      cases hx : x.isFinite with
      | false =>
          rw [countSamples_notFinite hstop hx]
          refine iff_of_false (fun h => by cases h) ?_
          rintro ⟨p, -, hp, hbefore⟩
          cases p with
          | zero => exact hstop hp
          | succ p =>
              rw [hbefore x List.mem_cons_self] at hx
              cases hx
      | true =>
          rw [countSamples_cons hstop hx, ih]
          constructor
          · rintro ⟨p, hlt, hp, hbefore⟩
            refine ⟨p + 1, Nat.succ_lt_succ hlt, ?_, List.forall_mem_cons.mpr ⟨hx, hbefore⟩⟩
            rwa [Nat.add_assoc, Nat.add_comm 1] at hp
          · rintro ⟨p, hlt, hp, hbefore⟩
            cases p with
            | zero => exact absurd hp hstop
            | succ p =>
                refine ⟨p, Nat.lt_of_succ_lt_succ hlt, ?_, (List.forall_mem_cons.mp hbefore).2⟩
                rwa [Nat.add_assoc, Nat.add_comm 1]

/-! ## All samples, chunk lengths and flags -/

/-- The counts of samples over the bins, chunk by chunk. -/
def chunkedCounts (b : Binning) (samples : List Float) (chunkSize : ℕ) (cancel : Cancellation) :
    Except CountingFault (List ℕ) :=
  (countChunks b (chunkLength chunkSize) cancel 0 (inChunks (chunkLength chunkSize) samples)
    (Array.replicate b.nBins 0)).map Array.toList

theorem chunkLength_pos (chunkSize : ℕ) : 0 < chunkLength chunkSize := Nat.le_max_right _ _

theorem referenceCounts_eq_chunkedCounts (samples : List Float) (chunkSize : ℕ)
    (cancel : Cancellation) :
    referenceCounts b samples chunkSize cancel = chunkedCounts b samples chunkSize cancel := by
  unfold referenceCounts chunkedCounts
  rw [← countSamples_eq_countChunks (chunkLength_pos chunkSize), Nat.zero_mul]

theorem referenceCounts_cancelled_iff (chunkSize : ℕ) (cancel : Cancellation) :
    referenceCounts b xs chunkSize cancel = .error .cancelled ↔
      ∃ p < xs.length, Stops (chunkLength chunkSize) cancel p ∧
        ∀ y ∈ xs.take p, y.isFinite = true := by
  have hiff : countSamples b (chunkLength chunkSize) cancel 0 xs (Array.replicate b.nBins 0) =
      .error .cancelled ↔ _ := countSamples_cancelled_iff 0 _
  simp only [Nat.zero_add] at hiff
  rw [← hiff, referenceCounts]
  cases countSamples b (chunkLength chunkSize) cancel 0 xs (Array.replicate b.nBins 0) with
  | ok counts => exact iff_of_false (fun h => by cases h) (fun h => by cases h)
  | error fault =>
      constructor
      · intro h
        cases h
        rfl
      · intro h
        cases h
        rfl

theorem referenceCounts_cancelled_or (chunkSize : ℕ) (cancel : Cancellation) :
    referenceCounts b xs chunkSize cancel = .error .cancelled ∨
      referenceCounts b xs chunkSize cancel = referenceCounts b xs chunkSize .never := by
  unfold referenceCounts
  have hcases : countSamples b (chunkLength chunkSize) cancel 0 xs (Array.replicate b.nBins 0) =
      .error .cancelled ∨ _ := countSamples_cancelled_or 0 _
  rcases hcases with h | h
  · exact .inl (by rw [h]; rfl)
  · exact .inr (by rw [h])

/-- A chunk that starts before the end does not start after the last one. -/
theorem le_lastStart {p length : ℕ} (hp : p < length) (hmod : p % chunk = 0) :
    p ≤ (length - 1) / chunk * chunk := by
  calc p = p / chunk * chunk := (Nat.div_mul_cancel (Nat.dvd_of_mod_eq_zero hmod)).symm
    _ ≤ (length - 1) / chunk * chunk :=
        Nat.mul_le_mul_right chunk (Nat.div_le_div_right (Nat.le_sub_one_of_lt hp))

/-- Counting over bins that are made, for all samples, chunk sizes and flags:

1. samples are counted as they are chunk by chunk, a chunk size of zero being taken for one;
2. without a flag there are counts exactly if all samples are finite, and each is the number
   of samples in its bin;
3. the counts sum to the number of samples;
4. what is found fault with is the first sample that is not finite, at its position in the
   whole list, and that is what a host is told;
5. a flag makes no difference but to cancel;
6. it cancels exactly if it is up before a chunk that has finite samples only before it;
7. and that chunk does not start after the last one. -/
theorem counted_in_chunks {min max : Float} {n : ℕ} (hb : Binning.of? min max n = some b)
    (samples : List Float) (chunkSize : ℕ) :
    (∀ cancel, referenceCounts b samples chunkSize cancel =
      chunkedCounts b samples chunkSize cancel) ∧
    (∀ counts, referenceCounts b samples chunkSize .never = .ok counts ↔
      (∀ x ∈ samples, x.isFinite = true) ∧
        counts = List.ofFn fun bin : Fin n => samples.countP (b.indexOf · == bin)) ∧
    (List.ofFn fun bin : Fin n => samples.countP (b.indexOf · == bin)).sum = samples.length ∧
    (∀ fault, referenceCounts b samples chunkSize .never = .error fault ↔
      ∃ p x, fault = .notFinite p x ∧ samples[p]? = some x ∧ x.isFinite = false ∧
        (∀ y ∈ samples.take p, y.isFinite = true) ∧
        fault.toHostError =
          .invalidInput s!"reference sample {p} is not finite: {Decimal.text x}") ∧
    (∀ raised, referenceCounts b samples chunkSize (.watched raised) = .error .cancelled ∨
      referenceCounts b samples chunkSize (.watched raised) =
        referenceCounts b samples chunkSize .never) ∧
    (∀ raised, referenceCounts b samples chunkSize (.watched raised) = .error .cancelled ↔
      ∃ p < samples.length, p % chunkLength chunkSize = 0 ∧ raised p = true ∧
        ∀ y ∈ samples.take p, y.isFinite = true) ∧
    (∀ raised, referenceCounts b samples chunkSize (.watched raised) = .error .cancelled →
      ∃ p ≤ (samples.length - 1) / chunkLength chunkSize * chunkLength chunkSize,
        raised p = true) := by
  obtain ⟨rfl, hproper⟩ := Binning.of?_eq_some_iff.mp hb
  have hbins : 0 < n := Nat.lt_of_lt_of_le Nat.two_pos hproper.nBins
  have hcancelled : ∀ raised,
      referenceCounts ⟨min, max, n⟩ samples chunkSize (.watched raised) = .error .cancelled ↔
        ∃ p < samples.length, p % chunkLength chunkSize = 0 ∧ raised p = true ∧
          ∀ y ∈ samples.take p, y.isFinite = true := by
    intro raised
    rw [referenceCounts_cancelled_iff]
    simp only [Stops, Cancellation.stopsAt, Bool.false_or, and_assoc]
  refine ⟨referenceCounts_eq_chunkedCounts samples chunkSize,
    referenceCounts_ok_iff chunkSize, ?_, ?_, fun raised => referenceCounts_cancelled_or _ _,
    hcancelled, ?_⟩
  · have hsum := Histogram.sum_counts_ofSamples (b := ⟨min, max, n⟩) hbins samples
    rwa [← Array.sum_toList, Histogram.ofSamples, Array.toList_ofFn] at hsum
  · intro fault
    rw [referenceCounts_error_iff]
    constructor
    · rintro ⟨p, x, rfl, hp, hx, hbefore⟩
      exact ⟨p, x, rfl, hp, hx, hbefore, rfl⟩
    · rintro ⟨p, x, hfault, hp, hx, hbefore, -⟩
      exact ⟨p, x, hfault, hp, hx, hbefore⟩
  · intro raised h
    obtain ⟨p, hp, hmod, hraised, -⟩ := (hcancelled raised).mp h
    exact ⟨p, le_lastStart hp hmod, hraised⟩

/-- Samples outside the range and one that is not a number, in chunks of two. -/
theorem counted_in_chunks_two :
    ∃ b, Binning.of? 0 4 4 = some b ∧
      referenceCounts b [0.5, 1.5, 1.7, 9, -3] 2 .never = .ok [2, 2, 0, 1] ∧
      referenceCounts b [0.5, 1.5, 9, 0 / 0, 1 / 0] 2 .never = .error (.notFinite 3 (0 / 0)) ∧
      referenceCounts b [0.5, 1.5, 9, 0 / 0, 1 / 0] 2 (.watched (2 ≤ ·)) = .error .cancelled := by
  have hb : Binning.of? 0 4 4 = some ⟨0, 4, 4⟩ :=
    Binning.of?_eq_some_iff.mpr ⟨rfl, ⟨rfl, rfl, by decide, by decide⟩⟩
  obtain ⟨-, hok, -⟩ := counted_in_chunks hb [0.5, 1.5, 1.7, 9, -3] 2
  obtain ⟨-, -, -, herror, -, hcancelled, -⟩ := counted_in_chunks hb [0.5, 1.5, 9, 0 / 0, 1 / 0] 2
  refine ⟨_, hb, (hok _).mpr ⟨by decide +kernel, by decide +kernel⟩, ?_, ?_⟩
  · exact (herror _).mpr ⟨3, 0 / 0, rfl, rfl, by decide, by decide +kernel, rfl⟩
  · exact (hcancelled _).mpr ⟨2, by decide, by decide, by decide, by decide +kernel⟩

end MarketSignals
