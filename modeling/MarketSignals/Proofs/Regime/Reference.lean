import MarketSignals.Batch.Reference
import MarketSignals.Proofs.Regime.Bookkeeping

/-!
# Three ways to a reference

A reference is filled from the stream, installed as counts that were made elsewhere,
or taken over from the recent window.  The three go through different code, and a
detector that has filled its reference goes on as one that had the same samples
counted elsewhere: only the progress that it reports, as long as it warms up, counts
the samples of the reference as well.  Taking over the window is installing its
counts.

## Main definitions

* `Estimator.performAll` — calls one after the other.
* `Estimator.retarget` — the detector with another number of samples expected for the
  reference.
* `Estimator.Replaces` — a call that gives a detector another reference.

## Main results

* `referenceCounts_eq` — counting elsewhere.
* `performAll_filled`, `installReference_eq` — filling and installing.
* `performAll_retarget` — how the two go on.
* `references_agree` — accepted settings.
-/

namespace MarketSignals

variable {b : Binning}

/-! ## Counting -/

theorem countSamples_eq (chunk : Nat) {xs : List Float}
    (hfinite : ∀ x ∈ xs, x.isFinite = true) (position : Nat) (before : List Float) :
    countSamples b chunk .never position xs (Histogram.ofSamples b before).counts =
      .ok (Histogram.ofSamples b (before ++ xs)).counts := by
  induction xs generalizing position before with
  | nil => rw [List.append_nil, countSamples]
  | cons x rest ih =>
      have hx : x.isFinite = true := hfinite x List.mem_cons_self
      have hrest := ih (fun y hy => hfinite y (List.mem_cons_of_mem x hy)) (position + 1)
        (before ++ [x])
      rw [List.append_assoc, List.singleton_append] at hrest
      unfold countSamples
      simp only [Cancellation.stopsAt, Bool.and_false, Bool.false_eq_true, if_false, hx,
        Bool.not_true]
      rw [← Histogram.counts_ofSamples_append, hrest]

/-- Counting samples elsewhere gives the counts of their histogram, whatever the size
of the chunks. -/
theorem referenceCounts_eq {xs : List Float}
    (hfinite : ∀ x ∈ xs, x.isFinite = true) (chunkSize : Nat) :
    referenceCounts b xs chunkSize .never = .ok (Histogram.ofSamples b xs).counts.toList := by
  have hempty : Array.replicate b.nBins 0 = (Histogram.ofSamples b []).counts :=
    congrArg Histogram.counts (Histogram.empty_eq_ofSamples b)
  unfold referenceCounts
  rw [hempty, countSamples_eq _ hfinite]
  rfl

/-- The same reading with `n` samples more, collected and required. -/
def SignalReading.plus (n : Nat) (s : SignalReading) : SignalReading :=
  match s.status with
  | .ready => s
  | .insufficientData collected required =>
      { s with status := .insufficientData (collected + n) (required + n) }

namespace Regime

variable {e₀ e e' : Estimator} {n : Nat} {x : Float} {xs : List Float}

/-! ## Calls one after the other -/

/-- Makes calls one after the other: the answers, and the detector that they leave. -/
def Estimator.performAll (e : Estimator) : List Call → List (Except Fault Reply) × Estimator
  | [] => ([], e)
  | c :: rest =>
      let made := e.perform c
      let others := made.2.performAll rest
      (made.1 :: others.1, others.2)

theorem inStep_performAll (hf : Fresh e₀) (calls : List Call) :
    ∃ past, InStep e₀ past (e₀.performAll calls).2 := by
  have hall : ∀ (calls : List Call) (e : Estimator) (past : History), InStep e₀ past e →
      ∃ past', InStep e₀ past' (e.performAll calls).2 := by
    intro calls
    induction calls with
    | nil => exact fun e past h => ⟨past, h⟩
    | cons c rest ih => exact fun e past h => ih _ _ (h.perform hf c).inStep
  exact hall calls e₀ (.filling []) (hf.reset_eq ▸ hf.inStep)

/-! ## Filling the reference from the stream -/

namespace Estimator

/-- A fresh detector that has taken samples into its reference. -/
def filled (e₀ : Estimator) (xs : List Float) : Estimator :=
  { e₀.reset with
    reference := .ofSamples e₀.binning xs
    filling := decide (xs.length < e₀.referenceSize) }

/-- A fresh detector with the counts of samples installed. -/
def loaded (e₀ : Estimator) (xs : List Float) : Estimator :=
  { e₀.reset with reference := .ofSamples e₀.binning xs, referenceTarget := 0, filling := false }

/-- A detector with another number of samples expected for the reference. -/
def retarget (n : Nat) (e : Estimator) : Estimator := { e with referenceTarget := n }

end Estimator

theorem filled_nil (hf : Fresh e₀) : e₀.filled [] = e₀ := by
  have hstart : e₀.filled [] = e₀.reset := by
    unfold Estimator.filled
    rw [← Histogram.empty_eq_ofSamples, List.length_nil, decide_eq_true hf.referenceSize_pos]
    rfl
  rw [hstart, hf.reset_eq]

theorem isConsistent_filled (hf : Fresh e₀) (xs : List Float) :
    (e₀.filled xs).isConsistent = true := by
  have hrecent : (Histogram.empty e₀.binning.nBins).isConsistent = true := by
    rw [Histogram.empty_eq_ofSamples]
    exact Histogram.isConsistent_ofSamples hf.nBins_pos []
  have hreference := Histogram.isConsistent_ofSamples hf.nBins_pos xs
  show (0 == 0 && (Histogram.empty e₀.binning.nBins).isConsistent &&
    (Histogram.ofSamples e₀.binning xs).isConsistent) = true
  rw [hrecent, hreference]
  rfl

/-- Samples that are short of the size of the reference go into it one by one. -/
theorem push_filled (hf : Fresh e₀) (hshort : xs.length < e₀.referenceSize)
    (hx : x.isFinite = true) :
    (e₀.filled xs).push x = (.ok (e₀.filled (xs ++ [x])).progress, e₀.filled (xs ++ [x])) := by
  have hfill : (e₀.filled xs).fill (e₀.binning.indexOf x) =
      (.ok (e₀.filled (xs ++ [x])).progress, e₀.filled (xs ++ [x])) := by
    have hlt : xs.length + 1 < UInt64.size := Nat.lt_of_le_of_lt hshort hf.referenceSize_lt
    have hadd : (e₀.filled xs).reference.add? (e₀.binning.indexOf x) =
        some (.ofSamples e₀.binning (xs ++ [x])) := Histogram.add?_ofSamples hf.nBins_pos hlt x
    have hcons := isConsistent_filled hf (xs ++ [x])
    have htotal : (Histogram.ofSamples e₀.binning (xs ++ [x])).total = (xs ++ [x]).length :=
      Histogram.total_ofSamples _ (by rwa [List.length_append])
    unfold Estimator.fill
    simp only [hadd, htotal]
    show (if (Estimator.filled e₀ (xs ++ [x])).isConsistent = true then _ else _) = _
    rw [if_pos hcons]
    rfl
  unfold Estimator.push
  rw [if_neg (show ¬ (e₀.filled xs).disabled = true from Bool.false_ne_true), hx]
  show (if decide (xs.length < e₀.referenceSize) = true then _ else _) = _
  rw [if_pos (decide_eq_true hshort)]
  exact hfill

/-- As many samples as the reference takes, or fewer, all go into it. -/
theorem performAll_filled (hf : Fresh e₀) (hfinite : ∀ x ∈ xs, x.isFinite = true)
    (before : List Float) (hlength : before.length + xs.length ≤ e₀.referenceSize) :
    (e₀.filled before).performAll (xs.map .push) =
      ((List.range' (before.length + 1) xs.length).map fun k =>
          .ok (.reading (.insufficient k (e₀.referenceSize + e₀.windowLength))),
        e₀.filled (before ++ xs)) := by
  induction xs generalizing before with
  | nil => rw [List.append_nil]; rfl
  | cons x rest ih =>
      rw [List.length_cons] at hlength
      have hrest := ih (fun y hy => hfinite y (List.mem_cons_of_mem x hy)) (before ++ [x])
        (by rw [List.length_append, List.length_singleton]; omega)
      rw [List.append_assoc, List.singleton_append, List.length_append,
        List.length_singleton] at hrest
      have hpush := push_filled hf (show before.length < e₀.referenceSize by omega)
        (hfinite x List.mem_cons_self)
      have hprogress : (e₀.filled (before ++ [x])).progress =
          .insufficient (before.length + 1) (e₀.referenceSize + e₀.windowLength) := by
        have hgrown : before.length + 1 ≤ e₀.referenceSize := by omega
        show Reading.insufficient
          (min (Histogram.ofSamples _ (before ++ [x])).total e₀.referenceSize + 0) _ = _
        rw [Histogram.total_ofSamples _ (by
            rw [List.length_append]
            exact hgrown.trans_lt hf.referenceSize_lt), List.length_append, List.length_singleton,
          Nat.min_eq_left hgrown]
        rfl
      simp only [List.map_cons, Estimator.performAll, Estimator.perform, hpush, Prod.map_apply,
        id, hrest, hprogress, List.length_cons, List.range'_succ]
      rfl

/-- Installing the counts of samples. -/
theorem installReference_eq (hf : Fresh e₀) (hne : xs ≠ []) (hxs : xs.length < UInt64.size) :
    e₀.installReference (Histogram.ofSamples e₀.binning xs).counts.toList =
      .ok (e₀.loaded xs) := by
  have hdisabled : e₀.disabled = false := by
    rw [← hf.reset_eq]
    rfl
  have hbins : (Histogram.ofSamples e₀.binning xs).counts.toList.length = e₀.binning.nBins := by
    rw [Array.length_toList]
    exact Histogram.nBins_ofSamples e₀.binning xs
  have hcounts := Histogram.ofCounts_toList (Histogram.isConsistent_ofSamples hf.nBins_pos xs)
  have hempty : (Histogram.ofSamples e₀.binning xs).isEmpty = false := by
    have hpos := List.length_pos_iff.mpr hne
    exact beq_eq_false_iff_ne.mpr (by rw [Histogram.total_ofSamples _ hxs]; omega)
  refine Estimator.installReference_eq_ok_iff.mpr ⟨⟨hdisabled, hbins, ?_⟩, ?_⟩
  · rw [hcounts]
    exact hempty
  · rw [hcounts, Estimator.loaded, hf.reset_eq]

/-- The two ways lead to the same detector, but for the number of samples that it
expects for its reference. -/
theorem filled_eq_retarget (hlength : xs.length = e₀.referenceSize) :
    e₀.filled xs = (e₀.loaded xs).retarget e₀.referenceSize := by
  unfold Estimator.filled
  rw [hlength, decide_eq_false (Nat.lt_irrefl _)]
  rfl

/-! ## Going on from there -/

/-- The same reading with `n` samples more, collected and required. -/
def Reading.plus (n : Nat) : Reading → Reading
  | insufficient collected required => insufficient (collected + n) (required + n)
  | ready result => ready result

/-- The same reply with `n` samples more, collected and required. -/
def Reply.plus (n : Nat) : Reply → Reply
  | reading r => reading (r.plus n)
  | signal s => signal (s.plus n)
  | done => done

/-- A call that gives a detector another reference, or none. -/
def Estimator.Replaces (e : Estimator) : Call → Prop
  | .rebase => ∃ e', e.rebase = .ok e'
  | .installReference counts => ∃ e', e.installReference counts = .ok e'
  | .reset => True
  | .push _ | .update _ => False

/-- A detector has the reference of another one, and is in the same phase. -/
structure SameReference (e e' : Estimator) : Prop where
  reference : e'.reference = e.reference
  target : e'.referenceTarget = e.referenceTarget
  filling : e'.filling = e.filling

/-- A detector that expects no more samples for its reference, which has `n` at
least. -/
structure Settled (n : Nat) (e : Estimator) : Prop where
  filling : e.filling = false
  target : e.referenceTarget = 0
  total : n ≤ e.reference.total

theorem Settled.congr (h : Settled n e) (hs : SameReference e e') : Settled n e' where
  filling := hs.filling.trans h.filling
  target := hs.target.trans h.target
  total := hs.reference ▸ h.total

theorem sameReference_evict (e : Estimator) : SameReference e e.evict.2 := by
  unfold Estimator.evict
  split
  · split
    · exact ⟨rfl, rfl, rfl⟩
    · split <;> exact ⟨rfl, rfl, rfl⟩
  · exact ⟨rfl, rfl, rfl⟩

/-- A sample for the window leaves the reference alone, however that ends. -/
theorem sameReference_slide (e : Estimator) (x : Float) (bin : Nat) :
    SameReference e (e.slide x bin).2 := by
  obtain ⟨hreference, htarget, hfilling⟩ := sameReference_evict e
  unfold Estimator.slide
  cases hevict : e.evict with
  | mk result evicted =>
      rw [hevict] at hreference htarget hfilling
      cases result with
      | error error => exact ⟨hreference, htarget, hfilling⟩
      | ok =>
          simp only
          split
          · exact ⟨hreference, htarget, hfilling⟩
          · split
            · exact ⟨hreference, htarget, hfilling⟩
            · split
              · exact ⟨hreference, htarget, hfilling⟩
              · split <;> exact ⟨hreference, htarget, hfilling⟩

theorem Settled.push (h : Settled n e) (x : Float) : Settled n (e.push x).2 := by
  unfold Estimator.push
  split
  · exact h
  · split
    · exact h
    · rw [h.filling]
      exact h.congr (sameReference_slide e x _)

theorem Settled.update (h : Settled n e) (event : MarketEvent) : Settled n (e.update event).2 := by
  unfold Estimator.update
  split
  · exact h
  · split
    · exact h
    · split
      · exact ⟨h.filling, h.target, h.total⟩
      · next ret _ =>
          have hpush := h.push ret
          split
          · next heq =>
              rw [heq] at hpush
              exact hpush
          · next heq =>
              rw [heq] at hpush
              exact ⟨hpush.filling, hpush.target, hpush.total⟩

theorem Settled.perform (h : Settled n e) {c : Call} (hc : ¬ e.Replaces c) :
    Settled n (e.perform c).2 := by
  cases c with
  | push x => exact h.push x
  | update event => exact h.update event
  | rebase =>
      show Settled n (e.replaced e.rebase).2
      cases hr : e.rebase with
      | error error => exact h
      | ok e' => exact absurd ⟨e', hr⟩ hc
  | installReference counts =>
      show Settled n (e.replaced (e.installReference counts)).2
      cases hi : e.installReference counts with
      | error error => exact h
      | ok e' => exact absurd ⟨e', hi⟩ hc
  | reset => exact absurd trivial hc

/-- Progress counts the samples that are expected for the reference. -/
theorem progress_retarget (h : Settled n e) : (e.retarget n).progress = e.progress.plus n := by
  have htotal := h.total
  unfold Estimator.progress Reading.plus Estimator.retarget
  simp only [h.target]
  congr 1 <;> omega

section

variable (n : Nat) (e : Estimator)

theorem binning_retarget : (e.retarget n).binning = e.binning := rfl

theorem window_retarget : (e.retarget n).window = e.window := rfl

theorem recent_retarget : (e.retarget n).recent = e.recent := rfl

theorem returns_retarget : (e.retarget n).returns = e.returns := rfl

end

theorem evict_retarget (n : Nat) (e : Estimator) :
    (e.retarget n).evict = e.evict.map id (Estimator.retarget n) := by
  unfold Estimator.evict
  show (if e.window.size = e.windowLength then _ else _) = _
  split
  · rw [window_retarget]
    cases e.window.pop? with
    | none => rfl
    | some p =>
        simp only [binning_retarget, recent_retarget]
        cases e.recent.remove (e.binning.indexOf p.1) <;> rfl
  · rfl

/-- What a detector says of a sample that it has taken into its window. -/
def Estimator.examine (e : Estimator) : Outcome Reading :=
  if !e.isConsistent then e.poison e.divergedError else e.report false

theorem examine_retarget (h : Settled n e) :
    (e.retarget n).examine = e.examine.map (·.map (Reading.plus n)) (Estimator.retarget n) := by
  have hprogress := progress_retarget h
  have hverdict : (e.retarget n).verdict =
      e.verdict.map (·.map (Reading.plus n)) (Estimator.retarget n) := by
    unfold Estimator.verdict
    rw [show (e.retarget n).evaluate = e.evaluate from rfl]
    cases e.evaluate with
    | ok result => rfl
    | error fault => cases fault <;> rfl
  unfold Estimator.examine Estimator.report
  rw [hprogress, hverdict]
  show (if (!e.isConsistent) = true then _
    else if (false || decide (e.window.size < e.windowLength)) = true then _ else _) = _
  split
  · rfl
  · split <;> rfl

theorem report_false (e : Estimator) :
    e.report false =
      if e.window.size < e.windowLength then (.ok e.progress, e) else e.verdict := by
  unfold Estimator.report
  simp only [Bool.false_or, decide_eq_true_eq]

theorem slide_eq (e : Estimator) (x : Float) (bin : Nat) :
    e.slide x bin =
      match e.evict with
      | (.error error, e) => e.poison error
      | (.ok (), e) =>
          match e.recent.add? bin with
          | none => (.error (Estimator.noSuchBin bin), { e with window := e.window.push x })
          | some recent =>
              Estimator.examine { e with window := e.window.push x, recent := recent } := by
  unfold Estimator.slide Estimator.examine
  simp only [report_false]
  rfl

theorem slide_retarget (h : Settled n e) (x : Float) (bin : Nat) :
    (e.retarget n).slide x bin =
      (e.slide x bin).map (·.map (Reading.plus n)) (Estimator.retarget n) := by
  have hsame := sameReference_evict e
  rw [slide_eq, slide_eq, evict_retarget]
  cases hevict : e.evict with
  | mk result evicted =>
      rw [hevict] at hsame
      cases result with
      | error error => rfl
      | ok =>
          show (match evicted.recent.add? bin with | none => _ | some recent => _) = _
          simp only
          cases evicted.recent.add? bin with
          | none => rfl
          | some recent =>
              refine examine_retarget (e := { evicted with
                window := evicted.window.push x, recent := recent }) ?_
              exact h.congr ⟨hsame.reference, hsame.target, hsame.filling⟩

theorem push_retarget (h : Settled n e) (x : Float) :
    (e.retarget n).push x = (e.push x).map (·.map (Reading.plus n)) (Estimator.retarget n) := by
  unfold Estimator.push
  show (if e.disabled = true then _ else if (!x.isFinite) = true then _
    else if e.filling = true then _ else (e.retarget n).slide x (e.binning.indexOf x)) = _
  rw [slide_retarget h, h.filling]
  split
  · rfl
  · split <;> rfl

theorem toSignal_plus (n : Nat) (r : Reading) : (r.plus n).toSignal = r.toSignal.plus n := by
  cases r <;> rfl

theorem update_retarget (h : Settled n e) (event : MarketEvent) :
    (e.retarget n).update event =
      (e.update event).map (·.map (SignalReading.plus n)) (Estimator.retarget n) := by
  unfold Estimator.update
  show (if e.disabled = true then _ else _) = _
  split
  · rfl
  · rw [returns_retarget]
    cases e.returns.peek event with
    | error fault => rfl
    | ok pending =>
        simp only
        cases pending.value with
        | none =>
            simp only
            have hprogress := progress_retarget
              (e := { e with returns := e.returns.commit pending }) ⟨h.filling, h.target, h.total⟩
            refine Prod.ext ?_ rfl
            show Except.ok _ = Except.ok (SignalReading.plus n (Reading.toSignal _))
            rw [← toSignal_plus, ← hprogress]
            rfl
        | some ret =>
            simp only
            rw [push_retarget h]
            cases e.push ret with
            | mk result pushed =>
                cases result with
                | error fault => rfl
                | ok reading => exact Prod.ext (congrArg Except.ok (toSignal_plus n reading)) rfl

theorem perform_retarget (h : Settled n e) {c : Call} (hc : ¬ e.Replaces c) :
    (e.retarget n).perform c =
      (e.perform c).map (·.map (Reply.plus n)) (Estimator.retarget n) := by
  cases c with
  | push x =>
      simp only [Estimator.perform, push_retarget h]
      cases e.push x with
      | mk result pushed => cases result <;> rfl
  | update event =>
      simp only [Estimator.perform, update_retarget h]
      cases e.update event with
      | mk result updated => cases result <;> rfl
  | rebase =>
      show (e.retarget n).replaced e.rebase = (e.replaced e.rebase).map _ _
      cases hr : e.rebase with
      | error error => rfl
      | ok e' => exact absurd ⟨e', hr⟩ hc
  | installReference counts =>
      show (e.retarget n).replaced (e.installReference counts) =
        (e.replaced (e.installReference counts)).map _ _
      cases hi : e.installReference counts with
      | error error => rfl
      | ok e' => exact absurd ⟨e', hi⟩ hc
  | reset => exact absurd trivial hc

/-- What was expected for the reference is forgotten when it is replaced. -/
theorem perform_retarget_of_replaces {c : Call} (hc : e.Replaces c) (n : Nat) :
    (e.retarget n).perform c = e.perform c := by
  cases c with
  | push x => exact hc.elim
  | update event => exact hc.elim
  | rebase =>
      obtain ⟨e', hr⟩ := hc
      show (e.retarget n).replaced e.rebase = e.replaced e.rebase
      rw [hr]
      rfl
  | installReference counts =>
      obtain ⟨e', hi⟩ := hc
      show (e.retarget n).replaced (e.installReference counts) =
        e.replaced (e.installReference counts)
      rw [hi]
      rfl
  | reset => rfl

/-- No call of a list replaces the reference. -/
def Estimator.Keeps (e : Estimator) (calls : List Call) : Prop :=
  ∀ first c rest, calls = first ++ c :: rest → ¬ (e.performAll first).2.Replaces c

theorem Estimator.Keeps.tail {c : Call} {rest : List Call} (hk : e.Keeps (c :: rest)) :
    (e.perform c).2.Keeps rest := by
  intro first d more heq
  exact hk (c :: first) d more (by rw [heq, List.cons_append])

/-- As long as the reference is not replaced, the answers differ in the progress. -/
theorem performAll_retarget (h : Settled n e) {calls : List Call} (hk : e.Keeps calls) :
    (e.retarget n).performAll calls =
      (e.performAll calls).map (List.map (·.map (Reply.plus n))) (Estimator.retarget n) := by
  induction calls generalizing e with
  | nil => rfl
  | cons c rest ih =>
      have hc : ¬ e.Replaces c := hk [] c rest rfl
      have hrest := ih (h.perform hc) hk.tail
      simp only [Estimator.performAll, perform_retarget h hc, Prod.map_fst, Prod.map_snd, hrest,
        Prod.map_apply, List.map_cons]

/-- Whatever is done, two such detectors go on to differ in nothing else. -/
theorem performAll_alike (h : Settled n e) (calls : List Call) :
    ((e.retarget n).performAll calls).2 = (e.performAll calls).2.retarget n ∨
      ((e.retarget n).performAll calls).2 = (e.performAll calls).2 := by
  induction calls generalizing e with
  | nil => exact .inl rfl
  | cons c rest ih =>
      simp only [Estimator.performAll]
      by_cases hc : e.Replaces c
      · rw [perform_retarget_of_replaces hc]
        exact .inr rfl
      · rw [perform_retarget h hc]
        exact ih (h.perform hc)

/-- From the call on that replaces the reference, they do not differ at all. -/
theorem performAll_of_replaces (h : Settled n e) {first : List Call} {c : Call}
    (hc : (e.performAll first).2.Replaces c) (rest : List Call) :
    ((e.retarget n).performAll first).2.performAll (c :: rest) =
      (e.performAll first).2.performAll (c :: rest) := by
  rcases performAll_alike h first with heq | heq
  · rw [heq]
    simp only [Estimator.performAll, perform_retarget_of_replaces hc]
  · rw [heq]

/-! ## Taking over the window -/

/-- Taking over the window is installing its counts. -/
theorem InStep.installReference_recent {past : History} (h : InStep e₀ past e) (hf : Fresh e₀)
    (hr : e.rebase = .ok e') : e.installReference e.recent.counts.toList = .ok e' := by
  have hbins : e.recent.counts.toList.length = e.binning.nBins := by
    rw [Array.length_toList, h.recent, h.binning]
    exact Histogram.nBins_ofSamples _ _
  have hcounts : Histogram.ofCounts e.recent.counts.toList = e.recent := by
    rw [h.recent]
    exact Histogram.ofCounts_toList (Histogram.isConsistent_ofSamples hf.nBins_pos _)
  obtain ⟨⟨hdisabled, hfilling, hfull⟩, rfl⟩ := Estimator.rebase_eq_ok_iff.mp hr
  have hempty : e.recent.isEmpty = false := by
    have hpos := hf.windowLength_pos
    rw [h.windowLength] at hfull
    refine beq_eq_false_iff_ne.mpr ?_
    rw [h.recent, Histogram.total_ofSamples _ (h.length_lt hf), ← h.sized]
    omega
  refine Estimator.installReference_eq_ok_iff.mpr ⟨⟨hdisabled, hbins, ?_⟩, ?_⟩
  · rw [hcounts]
    exact hempty
  · rw [hcounts, hfilling]

/-! ## Accepted settings -/

/-- The ways to a reference agree.  For accepted settings and as many finite samples as
the reference takes, a detector that fills its reference from the stream has the same
reference as one on which the counts of the samples are installed.  As long as neither
gets another reference, both answer every call in the same way, except that the progress
of the first counts the samples of the reference too; from then on they are the same.
And wherever a rebase succeeds, it does what installing the counts of the window would
do. -/
theorem references_agree {c : Config} {b : Binning} (hv : c.validate = .ok b) :
    ∃ e₀, Estimator.build c = .ok e₀ ∧
      (∀ (xs : List Float) (chunkSize : Nat), (∀ x ∈ xs, x.isFinite = true) →
        xs.length = c.referenceLength →
          ∃ counts loaded, referenceCounts b xs chunkSize .never = .ok counts ∧
            e₀.installReference counts = .ok loaded ∧
            let streamed := (e₀.performAll (xs.map .push)).2
            (e₀.performAll (xs.map .push)).1 = (List.range' 1 c.referenceLength).map (fun k =>
              .ok (.reading (.insufficient k (c.referenceLength + c.windowLength)))) ∧
            streamed.reference = loaded.reference ∧
            (∀ calls, loaded.Keeps calls →
              (streamed.performAll calls).1 =
                  (loaded.performAll calls).1.map (·.map (Reply.plus c.referenceLength)) ∧
                (streamed.performAll calls).2.reference = (loaded.performAll calls).2.reference) ∧
            ∀ first call rest, (loaded.performAll first).2.Replaces call →
              (streamed.performAll first).2.performAll (call :: rest) =
                (loaded.performAll first).2.performAll (call :: rest)) ∧
      ∀ calls e', (e₀.performAll calls).2.rebase = .ok e' →
        (e₀.performAll calls).2.installReference
          (e₀.performAll calls).2.recent.counts.toList = .ok e' := by
  have hf := fresh_of_validate hv
  refine ⟨_, build_eq_of_validate hv, ?_, ?_⟩
  · generalize he₀ : Estimator.start b c.windowLength c.referenceLength c.threshold c.epsilon
      c.input = e₀ at hf ⊢
    intro xs chunkSize hfinite hlength
    have hb : e₀.binning = b := by rw [← he₀]; rfl
    have hsize : e₀.referenceSize = c.referenceLength := by rw [← he₀]; rfl
    have hwindow : e₀.windowLength = c.windowLength := by rw [← he₀]; rfl
    have hne : xs ≠ [] := by
      have hpos := hf.referenceSize_pos
      rintro rfl
      rw [List.length_nil] at hlength
      omega
    have hstream := performAll_filled hf hfinite [] (by rw [hsize, ← hlength]; simp)
    rw [filled_nil hf, List.nil_append, filled_eq_retarget (hlength.trans hsize.symm), hsize,
      hwindow, List.length_nil, Nat.zero_add, hlength] at hstream
    have hlt : xs.length < UInt64.size := by
      rw [hlength, ← hsize]
      exact hf.referenceSize_lt
    have hsettled : Settled c.referenceLength (e₀.loaded xs) :=
      ⟨rfl, rfl, (hlength.symm.trans (Histogram.total_ofSamples _ hlt).symm).le⟩
    refine ⟨_, e₀.loaded xs, referenceCounts_eq hfinite chunkSize, ?_, ?_⟩
    · rw [← hb]
      exact installReference_eq hf hne hlt
    · rw [hstream]
      refine ⟨rfl, rfl, fun calls hk => ?_, fun first call rest hc => ?_⟩
      · rw [performAll_retarget hsettled hk]
        exact ⟨rfl, rfl⟩
      · exact performAll_of_replaces hsettled hc rest
  · intro calls e' hr
    obtain ⟨past, hin⟩ := inStep_performAll hf calls
    exact hin.installReference_recent hf hr

/-- The detector whose window is taken over. -/
def steadyDetector : Estimator := .start ⟨-1, 1, 4⟩ 2 3 0.05 1e-30 {}

theorem references_agree_shortWindow :
    (shortWindow.validate = .ok ⟨-1, 1, 4⟩ ∧
      ∃ e₀ loaded, Estimator.build shortWindow = .ok e₀ ∧
        (∃ counts, referenceCounts ⟨-1, 1, 4⟩ [0.5, 2, -3] 2 .never = .ok counts ∧
          e₀.installReference counts = .ok loaded) ∧
        let streamed := (e₀.performAll ([0.5, 2, -3].map .push)).2
        streamed.reference = loaded.reference ∧
          (streamed.performAll [.push 0.1, .push (0 / 0), .push 0.2]).1 =
            (loaded.performAll [.push 0.1, .push (0 / 0), .push 0.2]).1.map
              (·.map (Reply.plus 3)) ∧
          (streamed.performAll [.push 0.1]).2.performAll [.reset, .push 0.2] =
            (loaded.performAll [.push 0.1]).2.performAll [.reset, .push 0.2]) ∧
      steadyWindow.validate = .ok ⟨-1, 1, 4⟩ ∧
      ∃ e₀ loaded rebased, Estimator.build steadyWindow = .ok e₀ ∧
        (∃ counts, referenceCounts ⟨-1, 1, 4⟩ [0.5, 2, 0.75] 2 .never = .ok counts ∧
          e₀.installReference counts = .ok loaded) ∧
        let streamed := (e₀.performAll ([0.5, 2, 0.75].map .push)).2
        let full := (e₀.performAll ([0.5, 2, 0.75, 0.6, 0.9].map .push)).2
        (loaded.performAll [.push 0.6, .push 0.9]).2.Replaces .rebase ∧
          (streamed.performAll [.push 0.6, .push 0.9]).2.performAll [.rebase, .push 0.1] =
            (loaded.performAll [.push 0.6, .push 0.9]).2.performAll [.rebase, .push 0.1] ∧
          full.rebase = .ok rebased ∧ rebased.reference = ⟨#[0, 0, 0, 2], 2⟩ ∧
            full.installReference full.recent.counts.toList = .ok rebased := by
  refine ⟨?_, ?_⟩
  · have hv : shortWindow.validate = .ok ⟨-1, 1, 4⟩ := by rfl
    obtain ⟨e₀, hbuild, hagree, -⟩ := references_agree hv
    obtain ⟨counts, loaded, hcounts, hloaded, -, hreference, hkept, hreplaced⟩ :=
      hagree [0.5, 2, -3] 2 (by decide +kernel) rfl
    refine ⟨hv, e₀, loaded, hbuild, ⟨counts, hcounts, hloaded⟩, hreference, ?_, ?_⟩
    · refine (hkept _ ?_).1
      intro first call rest heq hreplaces
      have hm : call ∈ [Call.push 0.1, .push (0 / 0), .push 0.2] := by
        rw [heq]
        exact List.mem_append_right _ List.mem_cons_self
      simp only [List.mem_cons, List.not_mem_nil, or_false] at hm
      rcases hm with rfl | rfl | rfl <;> exact hreplaces
    · exact hreplaced [.push 0.1] .reset [.push 0.2] trivial
  · have hv : steadyWindow.validate = .ok ⟨-1, 1, 4⟩ := by rfl
    have hfinite : ∀ x ∈ [(0.5 : Float), 2, 0.75], x.isFinite = true := by decide +kernel
    obtain ⟨e₀, hbuild, hagree, hrebased⟩ := references_agree hv
    obtain ⟨counts, loaded, hcounts, hloaded, -, -, -, hreplaced⟩ :=
      hagree [0.5, 2, 0.75] 2 hfinite rfl
    obtain rfl : e₀ = steadyDetector :=
      Except.ok.inj (hbuild.symm.trans (build_eq_of_validate hv))
    obtain rfl := Except.ok.inj (hcounts.symm.trans (referenceCounts_eq hfinite 2))
    obtain rfl := Except.ok.inj (hloaded.symm.trans
      (installReference_eq (fresh_of_validate hv) (List.cons_ne_nil _ _) (by decide)))
    -- All samples are in one bin, so the divergence is the logarithm of one.
    have hfull : (steadyDetector.performAll
        ([0.5, 2, 0.75, 0.6, 0.9].map .push)).2.rebase = .ok _ :=
      Estimator.rebase_eq_ok_iff.mpr ⟨by decide +kernel, rfl⟩
    have hreplaces : ((steadyDetector.loaded [0.5, 2, 0.75]).performAll
        [.push 0.6, .push 0.9]).2.Replaces .rebase :=
      ⟨_, Estimator.rebase_eq_ok_iff.mpr ⟨by decide +kernel, rfl⟩⟩
    exact ⟨hv, _, _, _, hbuild, ⟨_, hcounts, hloaded⟩, hreplaces,
      hreplaced [.push 0.6, .push 0.9] .rebase [.push 0.1] hreplaces, hfull,
      by decide +kernel, hrebased _ _ hfull⟩

end Regime

end MarketSignals
