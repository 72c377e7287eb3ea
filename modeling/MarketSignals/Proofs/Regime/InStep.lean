import MarketSignals.Proofs.Regime.History

/-!
# Detectors in step with their history

The histogram of the window is never counted afresh: a new sample is counted, the
oldest is binned again and taken out.  A detector is in step with its history
when this has come to the same.  Taking in a sample keeps it so, and so does
replacing the reference.

## Main definitions

* `InStep` — window and histograms are those that the history asks for.
* `Concluded` — how taking in a sample may end.

## Main results

* `InStep.evict` — the oldest sample always comes out.
* `InStep.push`, `InStep.update` — what taking in a sample comes to.
* `Estimator.rebase_eq_ok_iff`, `Estimator.installReference_eq_ok_iff` — when a reference is
  replaced, and what is then left.
* `InStep.rebase`, `InStep.installReference` — what a new reference comes to.
-/

namespace MarketSignals.Regime

/-! ## Windows -/

namespace Window

variable {α : Type}

/-- The size is that of the list. -/
def Sized (w : Window α) : Prop := w.size = w.toList.length

theorem empty_sized : (empty : Window α).Sized := rfl

theorem Sized.push {w : Window α} (hw : w.Sized) (x : α) : (w.push x).Sized := by
  unfold Sized at hw ⊢
  rw [toList_push, List.length_append, List.length_singleton, ← hw]
  rfl

/-- A window that is not empty gives its oldest sample. -/
theorem Sized.pop? {w : Window α} (hw : w.Sized) {x : α} {xs : List α}
    (hl : w.toList = x :: xs) : ∃ rest, w.pop? = some (x, rest) ∧ rest.toList = xs ∧ rest.Sized := by
  have hpop := toList_pop? w
  rw [hl] at hpop
  cases hp : w.pop? with
  | none =>
      rw [hp] at hpop
      cases hpop
  | some p =>
      obtain ⟨y, rest⟩ := p
      rw [hp] at hpop
      simp only [Option.map_some, List.head?_cons, Option.some.injEq, List.cons.injEq] at hpop
      obtain ⟨rfl, hrest⟩ := hpop
      have hsize : rest.size = w.size - 1 := by
        unfold Window.pop? at hp
        split at hp
        · cases hp
          rfl
        · split at hp
          · cases hp
            rfl
          · cases hp
      refine ⟨rest, rfl, hrest, ?_⟩
      unfold Sized at hw ⊢
      rw [hsize, hw, hl, hrest]
      rfl

end Window

/-! ## Detectors in step with a history -/

/-- A detector as it is built: its sizes are positive and fit in 64 bits, and it is in
the state that a reset leads to. -/
structure Fresh (e₀ : Estimator) : Prop where
  nBins_pos : 0 < e₀.binning.nBins
  windowLength_pos : 0 < e₀.windowLength
  windowLength_lt : e₀.windowLength < UInt64.size
  referenceSize_pos : 0 < e₀.referenceSize
  referenceSize_lt : e₀.referenceSize < UInt64.size
  reset_eq : e₀.reset = e₀

/-- A reference that samples can be tested against. -/
def Baseline.Usable (b : Binning) : Baseline → Prop
  | samples xs => xs ≠ [] ∧ xs.length < UInt64.size
  | counts ns => ns.length = b.nBins ∧ 0 < Histogram.wrap ns.sum

theorem Baseline.Usable.total_pos {b : Binning} {baseline : Baseline} (hu : baseline.Usable b) :
    0 < (baseline.histogram b).total := by
  cases baseline with
  | samples xs =>
      show 0 < (Histogram.ofSamples b xs).total
      rw [Histogram.total_ofSamples b hu.2]
      exact List.length_pos_iff.mpr hu.1
  | counts ns => exact hu.2.trans_eq (Histogram.total_ofCounts ns).symm

/-- What a history satisfies beside what it says: a reference phase that goes on
is short of samples, and one that is over has given a reference. -/
def History.Possible (e₀ : Estimator) : History → Prop
  | filling xs => xs.length < e₀.referenceSize
  | frozen baseline _ => baseline.Usable e₀.binning

/-- The samples of a reference are as many as a total can say. -/
theorem History.Possible.length_lt {e₀ : Estimator} {past : History} (hp : past.Possible e₀)
    (hf : Fresh e₀) {xs : List Float} (hb : past.baseline = .samples xs) :
    xs.length < UInt64.size := by
  cases past with
  | filling ys =>
      cases hb
      exact hp.trans hf.referenceSize_lt
  | frozen baseline ys =>
      obtain rfl : baseline = .samples xs := hb
      exact hp.2

/-- Window and histograms are those that the history asks for. -/
structure InStep (e₀ : Estimator) (past : History) (e : Estimator) : Prop where
  /-- The settings are those of the fresh detector. -/
  settings : e.reset = e₀
  sized : e.window.Sized
  ring : e.window.toList = past.latest e₀.windowLength
  recent : e.recent = .ofSamples e₀.binning e.window.toList
  reference : e.reference = past.baseline.histogram e₀.binning
  filling : e.filling = past.isFilling
  target : e.filling = true → e.referenceTarget = e₀.referenceSize
  possible : past.Possible e₀

variable {e₀ e e' : Estimator} {past : History}

namespace InStep

theorem binning (h : InStep e₀ past e) : e.binning = e₀.binning := by
  rw [← h.settings]
  rfl

theorem windowLength (h : InStep e₀ past e) : e.windowLength = e₀.windowLength := by
  rw [← h.settings]
  rfl

theorem referenceSize (h : InStep e₀ past e) : e.referenceSize = e₀.referenceSize := by
  rw [← h.settings]
  rfl

theorem threshold (h : InStep e₀ past e) : e.threshold = e₀.threshold := by
  rw [← h.settings]
  rfl

theorem epsilon (h : InStep e₀ past e) : e.epsilon = e₀.epsilon := by
  rw [← h.settings]
  rfl

theorem size_eq (h : InStep e₀ past e) :
    e.window.size = min past.recent.length e₀.windowLength := by
  rw [h.sized, h.ring, History.latest, List.length_drop]
  omega

theorem size_le (h : InStep e₀ past e) : e.window.size ≤ e₀.windowLength :=
  h.size_eq.trans_le (Nat.min_le_right _ _)

/-- The window is never so long that its total would wrap around. -/
theorem length_lt (h : InStep e₀ past e) (hf : Fresh e₀) :
    e.window.toList.length < UInt64.size := by
  rw [← h.sized]
  exact h.size_le.trans_lt hf.windowLength_lt

theorem nBins_reference (h : InStep e₀ past e) : e.reference.nBins = e₀.binning.nBins := by
  have hpossible := h.possible
  rw [h.reference]
  cases past with
  | filling xs => exact Histogram.nBins_ofSamples _ xs
  | frozen baseline xs =>
      cases baseline with
      | samples ys => exact Histogram.nBins_ofSamples _ ys
      | counts ns => simpa [History.baseline, Baseline.histogram, Histogram.ofCounts,
          Histogram.nBins] using hpossible.1

theorem isConsistent (h : InStep e₀ past e) (hf : Fresh e₀) : e.isConsistent = true := by
  have hreference : e.reference.isConsistent = true := by
    rw [h.reference]
    cases past.baseline with
    | samples xs => exact Histogram.isConsistent_ofSamples hf.nBins_pos xs
    | counts ns => exact Histogram.isConsistent_ofCounts ns
  have hrecent : e.recent.isConsistent = true := by
    rw [h.recent]
    exact Histogram.isConsistent_ofSamples hf.nBins_pos _
  have htotal : e.recent.total = e.window.size := by
    rw [h.recent, Histogram.total_ofSamples _ (h.length_lt hf), h.sized]
  simp [Estimator.isConsistent, htotal, hrecent, hreference]

/-- A reference that is made of samples says how many. -/
theorem total_reference (h : InStep e₀ past e) (hf : Fresh e₀) {xs : List Float}
    (hb : past.baseline = .samples xs) : e.reference.total = xs.length := by
  rw [h.reference, hb]
  exact Histogram.total_ofSamples _ (h.possible.length_lt hf hb)

/-- The total of the reference is the sum of its counts, if these fit in 64 bits. -/
theorem sum_reference (h : InStep e₀ past e) (hf : Fresh e₀) (hfits : past.baseline.Fits) :
    e.reference.counts.sum = e.reference.total := by
  cases hb : past.baseline with
  | samples xs =>
      rw [h.total_reference hf hb, h.reference, hb]
      exact Histogram.sum_counts_ofSamples hf.nBins_pos xs
  | counts ns =>
      rw [hb] at hfits
      rw [h.reference, hb]
      exact (Histogram.Made.ofCounts ns).sum_counts (by rwa [Histogram.ofCounts, List.sum_toArray])

/-- The returns of a detector and whether it is disabled have nothing to do with
its history. -/
theorem congr (h : InStep e₀ past e) (d : Bool) (t : ReturnTracker)
    (ht : t.input = e.returns.input) : InStep e₀ past { e with disabled := d, returns := t } where
  settings := by
    rw [← h.settings]
    simp [Estimator.reset, ht]
  sized := h.sized
  ring := h.ring
  recent := h.recent
  reference := h.reference
  filling := h.filling
  target := h.target
  possible := h.possible

end InStep

theorem Fresh.inStep (hf : Fresh e₀) : InStep e₀ (.filling []) e₀.reset where
  settings := by
    rw [hf.reset_eq, hf.reset_eq]
  sized := Window.empty_sized
  ring := (History.latest_filling _ []).symm
  recent := Histogram.empty_eq_ofSamples _
  reference := Histogram.empty_eq_ofSamples _
  filling := rfl
  target := fun _ => rfl
  possible := hf.referenceSize_pos

/-! ## Taking in a sample -/

/-- The last `m` of a list that has grown by one: the oldest makes place if there
were `m` already. -/
theorem latest_append_singleton {m : Nat} (hm : 0 < m) (xs : List Float) (x : Float) :
    (xs ++ [x]).drop ((xs ++ [x]).length - m) =
      (xs.drop (xs.length - m)).drop (if (xs.drop (xs.length - m)).length = m then 1 else 0) ++
        [x] := by
  have hdrop : (xs ++ [x]).drop ((xs ++ [x]).length - m) = xs.drop (xs.length + 1 - m) ++ [x] := by
    rw [List.length_append, List.length_singleton, List.drop_append_of_le_length (by omega)]
  rw [hdrop, List.drop_drop, List.length_drop]
  congr 2
  split <;> omega

/-- Eviction drops the oldest sample of a full window from window and histogram
alike; it does not fail. -/
theorem InStep.evict (h : InStep e₀ past e) (hf : Fresh e₀) :
    ∃ w, e.evict = (.ok (), { e with window := w, recent := .ofSamples e₀.binning w.toList }) ∧
      w.Sized ∧ w.toList = e.window.toList.drop
        (if e.window.toList.length = e₀.windowLength then 1 else 0) := by
  have hiff : e.window.size = e.windowLength ↔ e.window.toList.length = e₀.windowLength := by
    rw [h.windowLength, ← h.sized]
  unfold Estimator.evict
  by_cases hfull : e.window.toList.length = e₀.windowLength
  · rw [if_pos (hiff.mpr hfull), if_pos hfull]
    cases hl : e.window.toList with
    | nil =>
        have hpos := hf.windowLength_pos
        rw [hl, List.length_nil] at hfull
        omega
    | cons oldest xs =>
        obtain ⟨rest, hpop, hrest, hsized⟩ := h.sized.pop? hl
        have hremove : e.recent.remove (e.binning.indexOf oldest) =
            .ok (.ofSamples e₀.binning xs) := by
          rw [h.recent, hl, h.binning]
          exact Histogram.remove_ofSamples hf.nBins_pos oldest xs
        refine ⟨rest, ?_, hsized, hrest⟩
        simp only [hpop, hremove, hrest]
  · rw [if_neg (hfull ∘ hiff.mp), if_neg hfull]
    refine ⟨e.window, ?_, h.sized, rfl⟩
    rw [← h.recent]

section Libraries

variable [MathLibrary] [ChiSquared.GammaLibrary]

namespace Estimator

/-- The outcome of testing a full window. -/
def verdict (e : Estimator) : Outcome Reading :=
  match e.evaluate with
  | .ok result => (.ok (.ready result), e)
  | .error (.refused error) => e.poison error
  | .error (.panicked panic) => (.error (.panicked panic), e)

/-- What a detector says when it has taken a sample in: how far it is, until the
window is full for the first time, then the verdict. -/
def report (e : Estimator) (filled : Bool) : Outcome Reading :=
  if filled || e.window.size < e.windowLength then (.ok e.progress, e) else e.verdict

end Estimator

end Libraries

/-- A sample for the reference. -/
theorem InStep.fill (h : InStep e₀ past e) (hf : Fresh e₀) (hfill : e.filling = true) (x : Float) :
    ∃ e', InStep e₀ (past.fold e₀.referenceSize x) e' ∧ e'.disabled = e.disabled ∧
      e'.returns = e.returns ∧ e.fill (e.binning.indexOf x) = (.ok e'.progress, e') := by
  cases past with
  | frozen baseline xs =>
      rw [h.filling] at hfill
      cases hfill
  | filling xs =>
      have hshort : xs.length < e₀.referenceSize := h.possible
      have hlt : xs.length + 1 < UInt64.size := Nat.lt_of_le_of_lt hshort hf.referenceSize_lt
      have hadd : e.reference.add? (e.binning.indexOf x) =
          some (.ofSamples e₀.binning (xs ++ [x])) := by
        rw [h.reference, h.binning]
        exact Histogram.add?_ofSamples hf.nBins_pos hlt x
      have hlength : (Histogram.ofSamples e₀.binning (xs ++ [x])).total = xs.length + 1 := by
        rw [Histogram.total_ofSamples _ (by rwa [List.length_append]), List.length_append]
        rfl
      let e' : Estimator :=
        { e with
          reference := .ofSamples e₀.binning (xs ++ [x])
          filling := decide (xs.length + 1 < e.referenceTarget) }
      have hin : InStep e₀ ((History.filling xs).fold e₀.referenceSize x) e' := by
        have htarget := h.target hfill
        by_cases hmore : xs.length + 1 < e₀.referenceSize
        · rw [History.fold, if_pos hmore]
          exact
            { settings := h.settings
              sized := h.sized
              ring := h.ring
              recent := h.recent
              reference := rfl
              filling := by simp [e', htarget, hmore, History.isFilling]
              target := fun _ => htarget
              possible := by simpa [History.Possible] using hmore }
        · rw [History.fold, if_neg hmore]
          exact
            { settings := h.settings
              sized := h.sized
              ring := h.ring
              recent := h.recent
              reference := rfl
              filling := by simp [e', htarget, hmore, History.isFilling]
              target := fun _ => htarget
              possible := by simpa [History.Possible, Baseline.Usable] using hlt }
      refine ⟨e', hin, rfl, rfl, ?_⟩
      unfold Estimator.fill
      simp only [hadd, hlength]
      exact if_pos (hin.isConsistent hf)

/-- A sample for the window. -/
theorem InStep.slide [MathLibrary] [ChiSquared.GammaLibrary] (h : InStep e₀ past e)
    (hf : Fresh e₀) (hfill : e.filling = false) (x : Float) :
    ∃ e', InStep e₀ (past.fold e₀.referenceSize x) e' ∧ e'.disabled = e.disabled ∧
      e'.returns = e.returns ∧ e.slide x (e.binning.indexOf x) = e'.report false := by
  cases past with
  | filling xs =>
      rw [h.filling] at hfill
      cases hfill
  | frozen baseline xs =>
      obtain ⟨w, hevict, hsized, hw⟩ := h.evict hf
      have hroom : w.toList.length + 1 ≤ e₀.windowLength := by
        have hpos := hf.windowLength_pos
        have hle := h.size_le
        rw [h.sized] at hle
        rw [hw, List.length_drop]
        split <;> omega
      have hadd : (Histogram.ofSamples e₀.binning w.toList).add? (e.binning.indexOf x) =
          some (.ofSamples e₀.binning (w.push x).toList) := by
        rw [h.binning, Window.toList_push]
        exact Histogram.add?_ofSamples hf.nBins_pos (hroom.trans_lt hf.windowLength_lt) x
      let e' : Estimator :=
        { e with window := w.push x, recent := .ofSamples e₀.binning (w.push x).toList }
      have hin : InStep e₀ ((History.frozen baseline xs).fold e₀.referenceSize x) e' :=
        { settings := h.settings
          sized := hsized.push x
          ring := by
            show (w.push x).toList = (xs ++ [x]).drop ((xs ++ [x]).length - e₀.windowLength)
            rw [latest_append_singleton hf.windowLength_pos, Window.toList_push, hw, h.ring]
            rfl
          recent := rfl
          reference := h.reference
          filling := h.filling
          target := h.target
          possible := h.possible }
      refine ⟨e', hin, rfl, rfl, ?_⟩
      unfold Estimator.slide
      simp only [hevict, hadd]
      have hcons : (!e'.isConsistent) = false := by rw [hin.isConsistent hf, Bool.not_true]
      rw [if_neg (by rw [hcons]; exact Bool.false_ne_true)]
      simp only [Estimator.report, Bool.false_or, decide_eq_true_eq]
      rfl

section Libraries

variable [MathLibrary] [ChiSquared.GammaLibrary]

/-- How a detector may end a call when it has taken a sample in, `e` being the
detector with the sample. -/
inductive Concluded (e : Estimator) (filled : Bool) : Outcome Reading → Prop
  | warming (short : filled = true ∨ e.window.size < e.windowLength) :
      Concluded e filled (.ok e.progress, e)
  | tested (result : TestResult) (full : e.windowLength ≤ e.window.size)
      (evaluated : e.evaluate = .ok result) : Concluded e filled (.ok (.ready result), e)
  | refused (error : EngineError) (evaluated : e.evaluate = .error (.refused error)) :
      Concluded e filled (.error (.refused error), { e with disabled := true })
  | panicked (panic : Panic) (evaluated : e.evaluate = .error (.panicked panic)) :
      Concluded e filled (.error (.panicked panic), e)

theorem concluded_report (e : Estimator) (filled : Bool) : Concluded e filled (e.report filled) := by
  unfold Estimator.report
  split
  · next hshort => exact .warming (by simpa using hshort)
  · next hfull =>
      have hlength : e.windowLength ≤ e.window.size := by
        simp only [Bool.or_eq_true, decide_eq_true_eq, not_or, Nat.not_lt] at hfull
        exact hfull.2
      unfold Estimator.verdict
      split
      · next result heval => exact .tested result hlength heval
      · next error heval => exact .refused error heval
      · next panic heval => exact .panicked panic heval

/-- A sample is refused and changes nothing, or it is taken in and only the test
can fail. -/
theorem InStep.push (h : InStep e₀ past e) (hf : Fresh e₀) (x : Float) :
    (e.sample? (.push x) = none ∧ ∃ error, e.push x = (.error (.refused error), e)) ∨
      (e.sample? (.push x) = some x ∧ ∃ e', InStep e₀ (past.fold e₀.referenceSize x) e' ∧
        e'.disabled = false ∧ e'.returns = e.returns ∧ Concluded e' e.filling (e.push x)) := by
  unfold Estimator.push
  by_cases hd : e.disabled = true
  · exact .inl ⟨by simp [Estimator.sample?, hd], _, if_pos hd⟩
  · rw [if_neg hd]
    by_cases hx : x.isFinite = true
    · have hsample : e.sample? (.push x) = some x := by simp [Estimator.sample?, hd, hx]
      rw [if_neg (by simp [hx])]
      refine .inr ⟨hsample, ?_⟩
      cases hfill : e.filling with
      | true =>
          obtain ⟨e', hin, hd', hret, heq⟩ := h.fill hf hfill x
          refine ⟨e', hin, by simpa [hd'] using hd, hret, ?_⟩
          simp only [if_true, heq]
          exact .warming (.inl rfl)
      | false =>
          obtain ⟨e', hin, hd', hret, heq⟩ := h.slide hf hfill x
          refine ⟨e', hin, by simpa [hd'] using hd, hret, ?_⟩
          simp only [Bool.false_eq_true, if_false, heq]
          exact concluded_report e' false
    · exact .inl ⟨by simp [Estimator.sample?, hx], _, if_pos (by simp [hx])⟩

/-- The end of an update whose return was taken in: the price is accepted unless
the test failed. -/
def Estimator.accepted (pending : PendingReturn) : Outcome Reading → Outcome SignalReading
  | (.error fault, e) => (.error fault, e)
  | (.ok reading, e) => (.ok reading.toSignal, { e with returns := e.returns.commit pending })

/-- An update is refused and changes nothing, or it accepts the first price, or
it takes a return in and only the test can fail. -/
theorem InStep.update (h : InStep e₀ past e) (hf : Fresh e₀) (event : MarketEvent) :
    (e.sample? (.update event) = none ∧
        ((∃ error, e.update event = (.error (.refused error), e)) ∨
          ∃ pending, e.update event =
            (.ok e.progress.toSignal, { e with returns := e.returns.commit pending }))) ∨
      ∃ x pending e' o, e.sample? (.update event) = some x ∧
        InStep e₀ (past.fold e₀.referenceSize x) e' ∧ e'.disabled = false ∧
          e'.returns = e.returns ∧ Concluded e' e.filling o ∧
            e.update event = Estimator.accepted pending o := by
  by_cases hd : e.disabled = true
  · exact .inl ⟨by simp [Estimator.sample?, hd], .inl ⟨_, if_pos hd⟩⟩
  · cases hpeek : e.returns.peek event with
    | error fault =>
        have hsample : e.sample? (.update event) = none := by
          simp [Estimator.sample?, hpeek, Except.toOption]
        have heq : e.update event =
            (.error (.refused (.invalidInput fault.message)), e) := by
          unfold Estimator.update
          simp only [if_neg hd, hpeek]
        exact .inl ⟨hsample, .inl ⟨_, heq⟩⟩
    | ok pending =>
        have hsample : e.sample? (.update event) = pending.value.filter Float.isFinite := by
          simp [Estimator.sample?, hpeek, hd, Except.toOption]
        cases hvalue : pending.value with
        | none =>
            have heq : e.update event =
                (.ok e.progress.toSignal, { e with returns := e.returns.commit pending }) := by
              unfold Estimator.update
              simp only [if_neg hd, hpeek, hvalue]
              rfl
            exact .inl ⟨by rw [hsample, hvalue]; rfl, .inr ⟨pending, heq⟩⟩
        | some ret =>
            rw [hsample, hvalue]
            rcases h.push hf ret with ⟨hs, error, hpush⟩ | ⟨hs, e', hin, hd', hret, hc⟩
            · have hnone : (some ret).filter Float.isFinite = none := by
                rw [← hs]
                simp [Estimator.sample?, hd]
              have heq : e.update event = (.error (.refused error), e) := by
                unfold Estimator.update
                simp only [if_neg hd, hpeek, hvalue, hpush]
              exact .inl ⟨hnone, .inl ⟨error, heq⟩⟩
            · have hsome : (some ret).filter Float.isFinite = some ret := by
                rw [← hs]
                simp [Estimator.sample?, hd]
              refine .inr ⟨ret, pending, e', _, hsome, hin, hd', hret, hc, ?_⟩
              unfold Estimator.update
              simp only [if_neg hd, hpeek, hvalue]
              rfl

end Libraries

/-! ## Replacing the reference -/

namespace Estimator

/-- A detector that is not disabled takes its window for the reference once the window is
full. -/
theorem rebase_eq_ok_iff :
    e.rebase = .ok e' ↔
      (e.disabled = false ∧ e.filling = false ∧ e.windowLength ≤ e.window.size) ∧
        e' = { e with reference := e.recent, referenceTarget := 0 } := by
  unfold rebase
  rw [Bool.eq_false_iff, Bool.eq_false_iff, ← Nat.not_lt]
  split
  · next hd => exact ⟨nofun, fun h => absurd hd h.1.1⟩
  · next hd =>
      simp only [Bool.or_eq_true, decide_eq_true_eq]
      split
      · next hbusy =>
          exact ⟨nofun, fun h => absurd hbusy (not_or.mpr h.1.2)⟩
      · next hbusy =>
          exact ⟨fun h => ⟨⟨hd, not_or.mp hbusy⟩, (Except.ok.inj h).symm⟩,
            fun h => congrArg Except.ok h.2.symm⟩

/-- A detector that is not disabled takes counts for the reference if there is one for every
bin and some sample is counted. -/
theorem installReference_eq_ok_iff {ns : List Nat} :
    e.installReference ns = .ok e' ↔
      (e.disabled = false ∧ ns.length = e.binning.nBins ∧
        (Histogram.ofCounts ns).isEmpty = false) ∧
        e' = { e with reference := .ofCounts ns, referenceTarget := 0, filling := false } := by
  unfold installReference
  rw [Bool.eq_false_iff, Bool.eq_false_iff]
  split
  · next hd => exact ⟨nofun, fun h => absurd hd h.1.1⟩
  · next hd =>
      split
      · next hlength => exact ⟨nofun, fun h => absurd h.1.2.1 hlength⟩
      · next hlength =>
          simp only
          split
          · next hempty => exact ⟨nofun, fun h => absurd hempty h.1.2.2⟩
          · next hempty =>
              exact ⟨fun h => ⟨⟨hd, not_not.mp hlength, hempty⟩, (Except.ok.inj h).symm⟩,
                fun h => congrArg Except.ok h.2.symm⟩

end Estimator

theorem InStep.rebase (h : InStep e₀ past e) (hf : Fresh e₀) (hr : e.rebase = .ok e') :
    InStep e₀ (past.replace (.samples (past.latest e₀.windowLength))) e' ∧
      e'.disabled = e.disabled := by
  obtain ⟨⟨-, hfill, hfull⟩, rfl⟩ := Estimator.rebase_eq_ok_iff.mp hr
  refine ⟨?_, rfl⟩
  exact
    { settings := h.settings
      sized := h.sized
      ring := h.ring
      recent := h.recent
      reference := by
        show e.recent = .ofSamples e₀.binning (past.latest e₀.windowLength)
        rw [← h.ring]
        exact h.recent
      filling := hfill
      target := by
        intro htrue
        rw [hfill] at htrue
        cases htrue
      possible := by
        show past.latest e₀.windowLength ≠ [] ∧ _
        rw [← h.ring]
        refine ⟨fun hnil => ?_, h.length_lt hf⟩
        have hzero : e.window.size = 0 := by rw [h.sized, hnil, List.length_nil]
        have hpos := hf.windowLength_pos
        rw [h.windowLength] at hfull
        omega }

theorem InStep.installReference (h : InStep e₀ past e) {ns : List Nat}
    (hi : e.installReference ns = .ok e') :
    InStep e₀ (past.replace (.counts ns)) e' ∧ e'.disabled = e.disabled := by
  obtain ⟨⟨-, hlength, hempty⟩, rfl⟩ := Estimator.installReference_eq_ok_iff.mp hi
  refine ⟨?_, rfl⟩
  exact
    { settings := h.settings
      sized := h.sized
      ring := h.ring
      recent := h.recent
      reference := rfl
      filling := rfl
      target := fun htrue => by cases htrue
      possible := by
        show ns.length = e₀.binning.nBins ∧ 0 < Histogram.wrap ns.sum
        rw [← h.binning, ← Histogram.total_ofCounts]
        exact ⟨hlength, Nat.pos_of_ne_zero (beq_eq_false_iff_ne.mp hempty)⟩ }

end MarketSignals.Regime
