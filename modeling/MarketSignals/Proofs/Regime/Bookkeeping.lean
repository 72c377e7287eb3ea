import MarketSignals.Proofs.Outcome
import MarketSignals.Proofs.Regime.InStep

/-!
# The bookkeeping of a detector

Every call keeps a detector in step with its history.  For that reason the checks
of the bookkeeping are always passed, and a failed test is all that disables a
detector.

## Main definitions

* `Accounted` — how a call may end.
* `Balanced` — what the parts of a detector say about its history.

## Main results

* `InStep.perform` — one call, whatever it is.
* `run_balanced` — every run of a detector with accepted settings.
-/

namespace MarketSignals.Regime

variable {e₀ e e' : Estimator} {past : History}

/-! ## Calls -/

/-- A reply that rests on a test. -/
def Reply.isReady : Reply → Bool
  | reading (.ready _) => true
  | signal s => s.status.isReady
  | _ => false

/-- A reply that gives the result of a test. -/
def Reply.Gives (result : TestResult) : Reply → Prop
  | reading r => r = .ready result
  | signal s => s = (Reading.ready result).toSignal
  | done => False

theorem isReady_progress (e : Estimator) : (Reply.reading e.progress).isReady = false := rfl

theorem isReady_progress_toSignal (e : Estimator) :
    (Reply.signal e.progress.toSignal).isReady = false := rfl

section Libraries

variable [MathLibrary] [ChiSquared.GammaLibrary]

/-- The result that a test of the exact histograms gives: the last samples, as
many as the window holds, against the reference of the history. -/
def Exact (e₀ : Estimator) (past : History) (result : TestResult) : Prop :=
  e₀.windowLength ≤ past.recent.length ∧
    { e₀ with
      reference := past.baseline.histogram e₀.binning
      recent := .ofSamples e₀.binning (past.latest e₀.windowLength) }.evaluate = .ok result

/-- How a call on a detector may end, given the history that it leads to. -/
structure Accounted (e₀ : Estimator) (past : History) (wasDisabled : Bool) (o : Outcome Reply) :
    Prop where
  inStep : InStep e₀ past o.2
  /-- Only an error of the test disables a detector. -/
  disabled : o.2.disabled = true → wasDisabled = true ∨
    ∃ error, o.2.evaluate = .error (.refused error) ∧ o.1 = .error (.refused error)
  /-- Only the test may break off. -/
  panicked : ∀ panic, o.1 = .error (.panicked panic) → o.2.evaluate = .error (.panicked panic)
  /-- A result is that of the exact histograms. -/
  ready : ∀ reply, o.1 = .ok reply → reply.isReady = true →
    ∃ result, reply.Gives result ∧ Exact e₀ past result

theorem InStep.exact (h : InStep e₀ past e) {result : TestResult}
    (hfull : e.windowLength ≤ e.window.size) (he : e.evaluate = .ok result) :
    Exact e₀ past result := by
  constructor
  · rw [h.size_eq, h.windowLength] at hfull
    omega
  · rw [← he]
    unfold Estimator.evaluate
    simp only [h.reference, h.recent, h.ring, h.binning, h.epsilon, h.threshold]

/-- A call that is refused and changes nothing. -/
theorem InStep.accounted_refused (h : InStep e₀ past e) (error : EngineError) :
    Accounted e₀ past e.disabled (.error (.refused error), e) where
  inStep := h
  disabled := .inl
  panicked := fun panic hp => by cases hp
  ready := fun reply hr => by cases hr

/-- A call that succeeds without a test. -/
theorem InStep.accounted_ok (h : InStep e₀ past e) {reply : Reply} {wasDisabled : Bool}
    (hd : e.disabled = true → wasDisabled = true) (hr : reply.isReady = false) :
    Accounted e₀ past wasDisabled (.ok reply, e) where
  inStep := h
  disabled := fun h => .inl (hd h)
  panicked := fun panic hp => by cases hp
  ready := by
    intro reply' heq hready
    cases heq
    rw [hr] at hready
    cases hready

/-- A call that succeeds with the result of a test. -/
theorem InStep.accounted_tested (h : InStep e₀ past e) {reply : Reply} {result : TestResult}
    (hd : e.disabled = false) (hg : reply.Gives result) (he : Exact e₀ past result) :
    Accounted e₀ past false (.ok reply, e) where
  inStep := h
  disabled := fun htrue => .inl (hd ▸ htrue)
  panicked := fun panic hp => by cases hp
  ready := by
    intro reply' heq _
    cases heq
    exact ⟨result, hg, he⟩

/-- A call that ends with the failure of a test. -/
theorem InStep.accounted_failed (h : InStep e₀ past e) {fault : Fault}
    (hd : e.disabled = true → ∃ error, fault = .refused error)
    (he : e.evaluate = .error fault) : Accounted e₀ past false (.error fault, e) where
  inStep := h
  disabled := by
    intro htrue
    obtain ⟨error, rfl⟩ := hd htrue
    exact .inr ⟨error, he, rfl⟩
  panicked := by
    intro panic heq
    cases heq
    exact he
  ready := fun reply heq => by cases heq

theorem Concluded.accounted_reading {filled : Bool} {o : Outcome Reading}
    (hc : Concluded e filled o) (h : InStep e₀ past e) (hd : e.disabled = false) :
    Accounted e₀ past false (o.map (·.map .reading) id) := by
  cases hc with
  | warming short => exact h.accounted_ok (hd ▸ id) (isReady_progress e)
  | tested result full evaluated => exact h.accounted_tested hd rfl (h.exact full evaluated)
  | refused error evaluated =>
      exact (h.congr true e.returns rfl).accounted_failed (fun _ => ⟨error, rfl⟩) evaluated
  | panicked panic evaluated =>
      exact h.accounted_failed (fun htrue => by rw [hd] at htrue; cases htrue) evaluated

theorem Concluded.accounted_signal {filled : Bool} {o : Outcome Reading}
    (hc : Concluded e filled o) (h : InStep e₀ past e) (hd : e.disabled = false)
    (pending : PendingReturn) :
    Accounted e₀ past false ((Estimator.accepted pending o).map (·.map .signal) id) := by
  have hin := h.congr e.disabled (e.returns.commit pending) rfl
  cases hc with
  | warming short => exact hin.accounted_ok (hd ▸ id) (isReady_progress_toSignal e)
  | tested result full evaluated => exact hin.accounted_tested hd rfl (h.exact full evaluated)
  | refused error evaluated =>
      exact (h.congr true e.returns rfl).accounted_failed (fun _ => ⟨error, rfl⟩) evaluated
  | panicked panic evaluated =>
      exact h.accounted_failed (fun htrue => by rw [hd] at htrue; cases htrue) evaluated

/-- Every call keeps a detector in step with its history. -/
theorem InStep.perform (h : InStep e₀ past e) (hf : Fresh e₀) (c : Call) :
    Accounted e₀ (past.after e c) e.disabled (e.perform c) := by
  cases c with
  | push x =>
      rcases h.push hf x with ⟨hs, error, hp⟩ | ⟨hs, e', hin, hd', _, hc⟩
      · simp only [History.after, hs, Estimator.perform, hp]
        exact h.accounted_refused error
      · simp only [History.after, hs, Estimator.perform, h.referenceSize]
        rw [Estimator.disabled_of_sample? hs]
        exact hc.accounted_reading hin hd'
  | update event =>
      rcases h.update hf event with ⟨hs, ⟨error, hu⟩ | ⟨pending, hu⟩⟩ |
        ⟨x, pending, e', o, hs, hin, hd', _, hc, hu⟩
      · simp only [History.after, hs, Estimator.perform, hu]
        exact h.accounted_refused error
      · simp only [History.after, hs, Estimator.perform, hu]
        exact (h.congr e.disabled (e.returns.commit pending) rfl).accounted_ok id
          (isReady_progress_toSignal e)
      · simp only [History.after, hs, Estimator.perform, hu, h.referenceSize]
        rw [Estimator.disabled_of_sample? hs]
        exact hc.accounted_signal hin hd' pending
  | rebase =>
      simp only [History.after, Estimator.perform, h.windowLength]
      cases hr : e.rebase with
      | error error => exact h.accounted_refused error
      | ok e' =>
          obtain ⟨hin, hd⟩ := h.rebase hf hr
          exact hin.accounted_ok (hd ▸ id) rfl
  | installReference ns =>
      simp only [History.after, Estimator.perform]
      cases hi : e.installReference ns with
      | error error => exact h.accounted_refused error
      | ok e' =>
          obtain ⟨hin, hd⟩ := h.installReference hi
          exact hin.accounted_ok (hd ▸ id) rfl
  | reset =>
      have hin : InStep e₀ (.filling []) e.reset := by
        have hstart := hf.inStep
        rw [hf.reset_eq] at hstart
        rw [h.settings]
        exact hstart
      exact hin.accounted_ok (fun htrue => by cases htrue) rfl

/-! ## Runs -/

theorem inStep_run (hf : Fresh e₀) (calls : List Call) :
    InStep e₀ (Recorded.run e₀ calls).past (Recorded.run e₀ calls).estimator := by
  have hall : ∀ (calls : List Call) (r : Recorded), InStep e₀ r.past r.estimator →
      InStep e₀ (calls.foldl Recorded.call r).past (calls.foldl Recorded.call r).estimator := by
    intro calls
    induction calls with
    | nil => exact fun r hr => hr
    | cons c rest ih => exact fun r hr => ih (r.call c) (hr.perform hf c).inStep
  have hstart := hf.inStep
  rw [hf.reset_eq] at hstart
  exact hall calls ⟨e₀, .filling []⟩ hstart

end Libraries

/-! ## Accepted settings -/

theorem validate_eq_ok_iff {c : Config} {b : Binning} :
    c.validate = .ok b ↔ c.nBins ≤ maxBins ∧ c.binning = .ok b ∧
      (1 ≤ c.windowLength ∧ c.windowLength ≤ maxWindow) ∧
      (1 ≤ c.referenceLength ∧ c.referenceLength ≤ maxReference) ∧
      (0 < c.threshold ∧ c.threshold < 1) ∧ c.epsilon.isFinite = true ∧ 0 < c.epsilon := by
  unfold Config.validate
  simp only [check_eq_ok_iff, bind_eq_ok_iff, not_not, Nat.not_lt]
  constructor
  · rintro ⟨hbins, b', hb, hwindow, hreference, hthreshold, hepsilon, hpure⟩
    cases hpure
    exact ⟨hbins, hb, hwindow, hreference, hthreshold, hepsilon⟩
  · rintro ⟨hbins, hb, hwindow, hreference, hthreshold, hepsilon⟩
    exact ⟨hbins, b, hb, hwindow, hreference, hthreshold, hepsilon, rfl⟩

theorem nBins_pos_of_binning {c : Config} {b : Binning} (hb : c.binning = .ok b) :
    0 < b.nBins := by
  unfold Config.binning Binning.of? at hb
  split at hb
  · next b' hb' =>
      cases hb
      split at hb'
      · next hok =>
          cases hb'
          simp only [Bool.and_eq_true, decide_eq_true_eq] at hok
          show 0 < c.nBins
          omega
      · cases hb'
  · cases hb

theorem fresh_of_validate {c : Config} {b : Binning} (hv : c.validate = .ok b) :
    Fresh (.start b c.windowLength c.referenceLength c.threshold c.epsilon c.input) := by
  obtain ⟨_, hb, hwindow, hreference, _⟩ := validate_eq_ok_iff.mp hv
  exact
    { nBins_pos := nBins_pos_of_binning hb
      windowLength_pos := hwindow.1
      windowLength_lt := hwindow.2.trans_lt (by decide)
      referenceSize_pos := hreference.1
      referenceSize_lt := hreference.2.trans_lt (by decide)
      reset_eq := rfl }

/-- The second check of the bins finds what the first one found. -/
theorem build_eq (c : Config) :
    Estimator.build c = c.validate.map fun b =>
      .start b c.windowLength c.referenceLength c.threshold c.epsilon c.input := by
  unfold Estimator.build
  cases hv : c.validate with
  | error fault => rfl
  | ok b =>
      have hb : c.binning = .ok b := (validate_eq_ok_iff.mp hv).2.1
      rw [hb]
      rfl

/-- Accepted settings are built into a fresh detector. -/
theorem build_eq_of_validate {c : Config} {b : Binning} (hv : c.validate = .ok b) :
    Estimator.build c = .ok (.start b c.windowLength c.referenceLength c.threshold c.epsilon
      c.input) := by
  rw [build_eq, hv]
  rfl

/-! ## Main result -/

/-- What the parts of a detector with the given sizes say about its history and
about each other. -/
structure Balanced (b : Binning) (windowLength referenceSize : Nat) (past : History)
    (e : Estimator) : Prop where
  /-- The window holds the last samples since the reference phase ended. -/
  window : e.window.toList = past.recent.drop (past.recent.length - windowLength)
  length_window : e.window.toList.length = min past.recent.length windowLength
  /-- Every bin holds the number of samples of the window that fall into it. -/
  counts : ∀ bin, bin < b.nBins →
    e.recent.counts[bin]? = some (e.window.toList.countP (b.indexOf · == bin))
  total : e.recent.total = e.window.toList.length
  nBins_recent : e.recent.nBins = b.nBins
  nBins_reference : e.reference.nBins = b.nBins
  sum_recent : e.recent.counts.sum = e.recent.total
  /-- The total of the reference is the sum of its counts in 64 bits. -/
  sum_reference : Histogram.wrap e.reference.counts.sum = e.reference.total
  /-- The reference counts the samples or is made of the counts it was taken from. -/
  reference : e.reference = past.baseline.histogram b
  /-- The reference phase is short of samples and has none in the window. -/
  filling : e.filling = true → e.window.toList = [] ∧ e.reference.total < referenceSize
  frozen : e.filling = false → 0 < e.reference.total
  /-- Every sample has a bin in both histograms. -/
  indexOf_lt : ∀ x, e.binning.indexOf x < e.recent.nBins ∧ e.binning.indexOf x < e.reference.nBins
  /-- The oldest sample of the window can be taken out of the histogram. -/
  evicts : ∀ x w, e.window.pop? = some (x, w) →
    ∃ recent, e.recent.remove (e.binning.indexOf x) = .ok recent
  consistent : e.isConsistent = true

theorem InStep.balanced (h : InStep e₀ past e) (hf : Fresh e₀) :
    Balanced e₀.binning e₀.windowLength e₀.referenceSize past e := by
  have hrecent : e.recent.nBins = e₀.binning.nBins := by
    rw [h.recent, Histogram.nBins_ofSamples]
  have hcons := h.isConsistent hf
  simp only [Estimator.isConsistent, Histogram.isConsistent_iff, Bool.and_eq_true,
    beq_iff_eq] at hcons
  have htotal : e.recent.total = e.window.toList.length := by
    rw [h.recent, Histogram.total_ofSamples _ (h.length_lt hf)]
  exact
    { window := h.ring
      length_window := by
        rw [← h.sized]
        exact h.size_eq
      counts := by
        intro bin hbin
        rw [h.recent]
        exact Histogram.getElem?_counts_ofSamples _ _ hbin
      total := htotal
      nBins_recent := hrecent
      nBins_reference := h.nBins_reference
      sum_recent := by
        rw [htotal, h.recent, Histogram.sum_counts_ofSamples hf.nBins_pos]
      sum_reference := hcons.2
      reference := h.reference
      filling := by
        intro htrue
        rw [h.filling] at htrue
        cases past with
        | frozen baseline xs => cases htrue
        | filling xs =>
            refine ⟨h.ring.trans (History.latest_filling _ xs), ?_⟩
            rw [h.total_reference hf rfl]
            exact h.possible
      frozen := by
        intro hfalse
        rw [h.filling] at hfalse
        cases past with
        | filling xs => cases hfalse
        | frozen baseline xs =>
            rw [h.reference]
            exact h.possible.total_pos
      indexOf_lt := by
        intro x
        have hx := Binning.indexOf_lt hf.nBins_pos x
        rw [hrecent, h.nBins_reference, h.binning]
        exact ⟨hx, hx⟩
      evicts := by
        intro x w hpop
        cases hl : e.window.toList with
        | nil =>
            have hnone := Window.toList_pop? e.window
            rw [hpop, hl] at hnone
            cases hnone
        | cons y ys =>
            obtain ⟨rest, hrest, _⟩ := h.sized.pop? hl
            rw [hpop] at hrest
            cases hrest
            rw [h.recent, hl, h.binning]
            exact ⟨_, Histogram.remove_ofSamples hf.nBins_pos x ys⟩
      consistent := h.isConsistent hf }

/-- Accepted settings give a detector that stays balanced over every run, with
every call accounted for: no bookkeeping fails, and a result is that of a test of
the exact histograms.  The total of the reference is the very sum of its counts, if
the counts that are installed fit in 64 bits. -/
theorem run_balanced {c : Config} {b : Binning} (hv : c.validate = .ok b) :
    ∃ e₀, Estimator.build c = .ok e₀ ∧ ∀ calls : List Call,
      let r := Recorded.run e₀ calls
      Balanced b c.windowLength c.referenceLength r.past r.estimator ∧
        ((∀ call ∈ calls, call.Fits) →
          r.estimator.reference.counts.sum = r.estimator.reference.total) ∧
        ∀ call, Accounted e₀ (r.call call).past r.estimator.disabled
          (r.estimator.perform call) := by
  have hf := fresh_of_validate hv
  refine ⟨_, build_eq_of_validate hv, fun calls => ⟨?_, fun hfits => ?_, fun call => ?_⟩⟩
  · exact (inStep_run hf calls).balanced hf
  · exact (inStep_run hf calls).sum_reference hf (Recorded.fits_run _ hfits)
  · exact (inStep_run hf calls).perform hf call

/-- Settings with a short window. -/
def shortWindow : Config :=
  { nBins := 4, domainMin := -1, domainMax := 1, windowLength := 2, threshold := 0.05
    epsilon := 0.01, referenceSize := some 3 }

/-- The same with smoothing that vanishes next to a share. -/
def steadyWindow : Config := { shortWindow with epsilon := 1e-30 }

theorem run_balanced_shortWindow :
    shortWindow.validate = .ok ⟨-1, 1, 4⟩ ∧
      ∃ e₀, Estimator.build shortWindow = .ok e₀ ∧
        let r := Recorded.run e₀ [.push 0.5, .push 2, .rebase, .push (0 / 0), .push (-3), .push 0.1,
          .installReference [1, 0, 2, 0], .push 0.2, .push 0.3, .rebase, .push 0.4]
        Balanced ⟨-1, 1, 4⟩ 2 3 r.past r.estimator ∧
          r.estimator.reference.counts.sum = r.estimator.reference.total := by
  have hv : shortWindow.validate = .ok ⟨-1, 1, 4⟩ := by rfl
  obtain ⟨e₀, hbuild, hrun⟩ := run_balanced hv
  exact ⟨hv, e₀, hbuild, (hrun _).1, (hrun _).2.1 (by decide)⟩

end MarketSignals.Regime
