import MarketSignals.Proofs.ChiSquared
import MarketSignals.Proofs.Divergence
import MarketSignals.Proofs.Binning.Order
import MarketSignals.Proofs.Regime.Bookkeeping

/-!
# What a test says

A test compares histograms of a run, so neither is empty, and both have the sums of their
counts for totals as long as counts that are installed fit in 64 bits.  Its figures then agree
with each other: the p-value is a probability as near to the tail of the statistic as the
library comes, and a shift is reported exactly if it falls below the threshold.  The divergence
is finite for smoothing of ordinary size.  Where it is not, it is infinite, and a shift is
reported.

## Main definitions

* `Coherent` — how the figures of a test hang together.

## Main results

* `InStep.comparable` — the histograms that are tested.
* `coherent_of_evaluate`, `readings_coherent` — one test, and every test of every run.
-/

namespace MarketSignals.Regime

open ChiSquared (GammaLibrary tail roundedMass roundedMass_accurate leastFloat value_leastFloat)
open Divergence (AllMeasured Comparable Smooths share)
open Rounding

variable {e₀ e : Estimator} {past : History}

/-! ## The histograms that are tested -/

/-- Histograms that are tested are over the same bins, neither is empty, and the total of either
is the sum of its counts. -/
theorem InStep.comparable (h : InStep e₀ past e) (hf : Fresh e₀) (hfits : past.baseline.Fits)
    (hfull : e₀.windowLength ≤ past.recent.length) : Comparable e.recent e.reference := by
  have hbalanced := h.balanced hf
  have hsize : e.recent.total = e₀.windowLength := by
    rw [hbalanced.total, hbalanced.length_window, Nat.min_eq_right hfull]
  have hfrozen : e.filling = false := by
    rw [h.filling]
    cases past with
    | filling xs => exact absurd hf.windowLength_pos (Nat.not_lt.mpr hfull)
    | frozen baseline xs => rfl
  exact
    { nBins := hbalanced.nBins_recent.trans hbalanced.nBins_reference.symm
      recent_pos := hsize ▸ hf.windowLength_pos
      recent_lt := hsize ▸ hf.windowLength_lt
      sum_recent := hbalanced.sum_recent
      reference_pos := hbalanced.frozen hfrozen
      reference_lt := hbalanced.sum_reference ▸ Histogram.wrap_lt _
      sum_reference := h.sum_reference hf hfits }

/-! ## One test -/

/-- Accepted settings smooth. -/
theorem smooths_of_validate {c : Config} {b : Binning} (hv : c.validate = .ok b) :
    Smooths c.nBins c.epsilon := by
  obtain ⟨hb, hmax⟩ := Binning.of?_of_validate hv
  obtain ⟨rfl, hproper⟩ := Binning.of?_eq_some_iff.mp hb
  obtain ⟨-, -, -, -, -, hfinite, hpos⟩ := validate_eq_ok_iff.mp hv
  rw [lt_iff_value rfl hfinite, value_zero] at hpos
  exact ⟨hproper.nBins, hmax, hfinite, hpos⟩

/-- How the figures of a test of two histograms hang together. -/
structure Coherent (c : Config) (recent reference : Histogram) (error : ℝ)
    (result : TestResult) : Prop where
  /-- The p-value is a probability, as near to the tail as the library comes. -/
  finite : result.pValue.isFinite = true
  nonneg : 0 ≤ value result.pValue
  le_one : value result.pValue ≤ 1
  near : |(value result.pValue : ℝ) - tail result.statistic (c.nBins - 1)| ≤ error
  isShift : result.isShift = decide (result.pValue < c.threshold)
  /-- The other figures are finite if all bins are measured. -/
  measured : AllMeasured recent reference c.epsilon →
    Between result.klDivergence 0 (2 ^ 26) ∧ Between result.statistic 0 (2 ^ 218)
  /-- And otherwise they are infinite. -/
  unmeasured : ¬ AllMeasured recent reference c.epsilon →
    result.klDivergence = infinity ∧ result.statistic = infinity ∧ result.pValue = 0 ∧
      result.isShift = true
  /-- Smoothing of ordinary size measures all bins. -/
  ordinary : 2 ^ (-1023 : ℤ) ≤ value c.epsilon → c.nBins * value c.epsilon < overflowPoint →
    AllMeasured recent reference c.epsilon
  /-- Smoothing that is too large measures none. -/
  large : overflowPoint ≤ c.nBins * value c.epsilon → ¬ AllMeasured recent reference c.epsilon

section Libraries

variable [MathLibrary] [GammaLibrary] {error : ℝ} {result : TestResult}

/-- A result is that of the detector's own histograms. -/
theorem InStep.evaluate_of_exact (h : InStep e₀ past e) (he : Exact e₀ past result) :
    e.evaluate = .ok result := by
  rw [← he.2]
  unfold Estimator.evaluate
  simp only [h.reference, h.recent, h.ring, h.binning, h.epsilon, h.threshold]

/-- The figures of a test that accepted settings lead to. -/
theorem coherent_of_evaluate (hlog : MathLibrary.Accurate 1)
    (hgamma : GammaLibrary.Accurate error) {c : Config} (hsmooths : Smooths c.nBins c.epsilon)
    (hpositive : 0 < c.threshold) (hbins : e.binning.nBins = c.nBins)
    (hreference : e.reference.nBins = c.nBins) (hthreshold : e.threshold = c.threshold)
    (hepsilon : e.epsilon = c.epsilon) (h : Comparable e.recent e.reference)
    (hresult : e.evaluate = .ok result) : Coherent c e.recent e.reference error result := by
  rw [← hreference] at hsmooths
  obtain ⟨hdivergence, hdivergence'⟩ := Divergence.smoothedDivergence_cases hlog h hsmooths
  obtain ⟨hstatistic, hstatistic'⟩ := Divergence.twoSampleStatistic_cases hlog h hsmooths
  unfold Estimator.evaluate at hresult
  rw [hbins, hthreshold, hepsilon] at hresult
  obtain ⟨p, hp, hpure⟩ := bind_eq_ok_iff.mp hresult
  cases hpure
  have hfew : c.nBins - 1 < UInt64.size := by
    have hmax := hsmooths.le_max
    rw [hreference] at hmax
    exact (Nat.sub_le _ _).trans_lt (hmax.trans_lt (by decide))
  have hsome : c.nBins - 1 ≠ 0 := by
    have htwo := hsmooths.two_le
    omega
  obtain ⟨hfinite, hlow, hhigh, hnear⟩ := ChiSquared.survival_spec hgamma hfew hp
  exact
    { finite := hfinite
      nonneg := hlow
      le_one := hhigh
      near := hnear
      isShift := rfl
      measured := fun hall => ⟨hdivergence hall, hstatistic hall⟩
      unmeasured := by
        intro hnot
        rw [hstatistic' hnot, ChiSquared.survival_infinity hsome] at hp
        cases hp
        exact ⟨hdivergence' hnot, hstatistic' hnot, rfl, decide_eq_true hpositive⟩
      ordinary := by
        intro hsmall hrange
        rw [← hreference] at hrange
        exact h.allMeasured_of_range hrange hsmall
      large := by
        intro hrange
        rw [← hreference] at hrange
        exact h.not_allMeasured_of_le hrange }

/-! ## Every test -/

/-- Whatever is called on a detector with accepted settings, a reply that rests on a test gives
figures that hang together, a logarithm and a statistics library within their errors being
there:

1. the p-value is a probability, and a shift is reported, by a signal of one and not zero,
   exactly if it is below the threshold;
2. divergence and statistic are finite and not negative if all bins are measured, as they are
   for smoothing of ordinary size;
3. otherwise both are infinite, the p-value is zero and a shift is reported. -/
theorem readings_coherent (hlog : MathLibrary.Accurate 1) (hgamma : GammaLibrary.Accurate error)
    {c : Config} {b : Binning} (hv : c.validate = .ok b) :
    ∃ e₀, Estimator.build c = .ok e₀ ∧ ∀ calls : List Call, (∀ call ∈ calls, call.Fits) →
      ∀ call : Call, call.Fits → ∀ reply,
        let before := (Recorded.run e₀ calls).estimator
        let after := (before.perform call).2
        (before.perform call).1 = .ok reply → reply.isReady = true →
          ∃ result, reply.Gives result ∧ Coherent c after.recent after.reference error result ∧
            ∀ s, reply = .signal s →
              s.value = if result.pValue < c.threshold then 1 else 0 := by
  have hf := fresh_of_validate hv
  obtain ⟨hb, -⟩ := Binning.of?_of_validate hv
  obtain ⟨hbins, -⟩ := Binning.of?_eq_some_iff.mp hb
  obtain ⟨-, -, -, -, ⟨hpositive, -⟩, -⟩ := validate_eq_ok_iff.mp hv
  refine ⟨_, build_eq_of_validate hv, ?_⟩
  intro calls hcalls call hcall reply before after hreply hready
  have hin := inStep_run hf calls
  have haccounted := hin.perform hf call
  obtain ⟨result, hgives, hexact⟩ := haccounted.ready reply hreply hready
  have hafter := haccounted.inStep
  have hnumber : b.nBins = c.nBins := by rw [hbins]
  have hcoherent : Coherent c after.recent after.reference error result :=
    coherent_of_evaluate hlog hgamma (smooths_of_validate hv) hpositive
      ((congrArg Binning.nBins hafter.binning).trans hnumber)
      (hafter.nBins_reference.trans hnumber) hafter.threshold hafter.epsilon
      (hafter.comparable hf (History.fits_after (Recorded.fits_run _ hcalls) _ hcall) hexact.1)
      (hafter.evaluate_of_exact hexact)
  refine ⟨result, hgives, hcoherent, ?_⟩
  rintro s rfl
  rw [hgives]
  show (if result.isShift then 1 else 0) = _
  rw [hcoherent.isShift]
  simp only [decide_eq_true_eq]

end Libraries

/-! ## The least smoothing -/

/-- The least smoothing there is, for two bins. -/
def leastSmoothing : Config :=
  { nBins := 2, domainMin := 0, domainMax := 1, windowLength := 1, threshold := 0.05
    epsilon := leastFloat, referenceSize := some 1 }

/-- The detector with these settings. -/
def leastDetector : Estimator := .start ⟨0, 1, 2⟩ 1 1 0.05 leastFloat {}

/-- The result that a reading gives. -/
def Reply.result? : Reply → Option TestResult
  | reading (.ready result) => some result
  | _ => none

theorem exists_reading {o : Except Fault Reply} {p : TestResult → Bool}
    (h : (o.toOption.bind Reply.result?).any p = true) :
    ∃ result, o = .ok (.reading (.ready result)) ∧ p result = true := by
  unfold Reply.result? at h
  match o, h with
  | .ok (.reading (.ready result)), h => exact ⟨result, rfl, h⟩

/-- The histograms of a test by what they hold. -/
theorem Coherent.of_eq {c : Config} {recent reference : Histogram} {error : ℝ}
    {result : TestResult} {o : Outcome Reply}
    (h : Coherent c o.2.recent o.2.reference error result) (hrecent : o.2.recent = recent)
    (hreference : o.2.reference = reference) : Coherent c recent reference error result := by
  rw [hrecent, hreference] at h
  exact h

theorem two_mul_leastFloat_lt : (2 : ℕ) * value leastFloat < overflowPoint := by
  rw [value_leastFloat]
  calc ((2 : ℕ) : ℚ) * 2 ^ (-1074 : ℤ) ≤ 2 * 1 :=
        mul_le_mul_of_nonneg_left (zpow_le_one_of_nonpos₀ (by norm_num) (by norm_num)) zero_le_two
    _ < 2 ^ 2 := by norm_num
    _ < overflowPoint := two_pow_lt_overflowPoint (by decide)

/-- A bin that the reference has seen is measured. -/
theorem allMeasured_seen : AllMeasured ⟨#[1, 0], 1⟩ ⟨#[1, 0], 1⟩ leastFloat := by
  intro c hc
  rw [List.mem_singleton.mp (show c ∈ [(1, 1)] from hc)]
  exact ⟨two_mul_leastFloat_lt, fun hzero => absurd hzero (by decide)⟩

/-- One that it has not is not. -/
theorem not_allMeasured_unseen : ¬ AllMeasured ⟨#[0, 1], 1⟩ ⟨#[1, 0], 1⟩ leastFloat := by
  intro hall
  obtain ⟨-, hunseen⟩ := hall (1, 0) (show (1, 0) ∈ [(1, 0)] from List.mem_singleton.mpr rfl)
  have hone : value (share 1 1) = 1 := by
    rw [show share 1 1 = 1 from by decide +kernel, value_one]
  have hlt : 1 < overflowPoint * value leastFloat := hone ▸ hunseen rfl
  rw [value_leastFloat, overflowPoint_eq, mul_assoc, ← zpow_add₀ (by norm_num)] at hlt
  norm_num at hlt

theorem readings_coherent_least :
    ∃ (_ : MathLibrary) (_ : GammaLibrary), MathLibrary.Accurate 1 ∧
      GammaLibrary.Accurate (1 / 2 ^ 53) ∧ leastSmoothing.validate = .ok ⟨0, 1, 2⟩ ∧
      Estimator.build leastSmoothing = .ok leastDetector ∧
        let filled := (Recorded.run leastDetector [.push 0.25]).estimator
        (∃ seen, (filled.perform (.push 0.25)).1 = .ok (.reading (.ready seen)) ∧
          seen.klDivergence.isFinite = true ∧ seen.statistic.isFinite = true) ∧
        (∃ unseen, (filled.perform (.push 0.75)).1 = .ok (.reading (.ready unseen)) ∧
          unseen.klDivergence = infinity ∧ unseen.pValue = 0 ∧ unseen.isShift = true) := by
  let math : MathLibrary := ⟨wholeLog⟩
  let gamma : GammaLibrary := ⟨roundedMass⟩
  have hv : leastSmoothing.validate = .ok ⟨0, 1, 2⟩ := by rfl
  have hbuild : Estimator.build leastSmoothing = .ok leastDetector := build_eq_of_validate hv
  obtain ⟨e₀, hbuild', hcoherent⟩ := readings_coherent wholeLog_accurate roundedMass_accurate hv
  obtain rfl : leastDetector = e₀ := Except.ok.inj (hbuild.symm.trans hbuild')
  have hfits : ∀ c ∈ [Call.push 0.25], c.Fits := by decide
  refine ⟨math, gamma, wholeLog_accurate, roundedMass_accurate, hv, hbuild, ?_, ?_⟩
  · obtain ⟨seen, hseen, -⟩ := exists_reading (p := fun _ => true)
      (o := ((Recorded.run leastDetector [.push 0.25]).estimator.perform (.push 0.25)).1)
      (by decide +kernel)
    obtain ⟨result, hgives, h, -⟩ := hcoherent _ hfits (.push 0.25) trivial _ hseen rfl
    cases hgives
    have h : Coherent leastSmoothing ⟨#[1, 0], 1⟩ ⟨#[1, 0], 1⟩ (1 / 2 ^ 53) seen :=
      h.of_eq (by decide +kernel) (by decide +kernel)
    obtain ⟨hdivergence, hstatistic⟩ := h.measured allMeasured_seen
    exact ⟨seen, hseen, hdivergence.finite, hstatistic.finite⟩
  · obtain ⟨unseen, hunseen, -⟩ := exists_reading (p := fun _ => true)
      (o := ((Recorded.run leastDetector [.push 0.25]).estimator.perform (.push 0.75)).1)
      (by decide +kernel)
    obtain ⟨result, hgives, h, -⟩ := hcoherent _ hfits (.push 0.75) trivial _ hunseen rfl
    cases hgives
    have h : Coherent leastSmoothing ⟨#[0, 1], 1⟩ ⟨#[1, 0], 1⟩ (1 / 2 ^ 53) unseen :=
      h.of_eq (by decide +kernel) (by decide +kernel)
    obtain ⟨hdivergence, -, hp, hshift⟩ := h.unmeasured not_allMeasured_unseen
    exact ⟨unseen, hunseen, hdivergence, hp, hshift⟩

/-- Smoothing whose sum over two bins has no float. -/
def greatSmoothing : Config := { leastSmoothing with epsilon := 1e308 }

/-- Accepted settings, and the same sample twice: neither figure is finite. -/
theorem divergence_infinite :
    greatSmoothing.validate = .ok ⟨0, 1, 2⟩ ∧ ∃ e₀, Estimator.build greatSmoothing = .ok e₀ ∧
      ∃ result, ((Recorded.run e₀ [.push 0.25]).estimator.perform (.push 0.25)).1 =
        .ok (.reading (.ready result)) ∧
          result.klDivergence.isFinite = false ∧ result.statistic.isFinite = false := by
  have hv : greatSmoothing.validate = .ok ⟨0, 1, 2⟩ :=
    validate_eq_ok_iff.mpr ⟨by decide, rfl, by decide, by decide, by decide +kernel,
      by decide +kernel, by decide +kernel⟩
  obtain ⟨result, hresult, hfigures⟩ := exists_reading
    (p := fun r => !r.klDivergence.isFinite && !r.statistic.isFinite)
    (o := ((Recorded.run (.start ⟨0, 1, 2⟩ 1 1 0.05 1e308 {}) [.push 0.25]).estimator.perform
      (.push 0.25)).1) (by decide +kernel)
  rw [Bool.and_eq_true, Bool.not_eq_true', Bool.not_eq_true'] at hfigures
  exact ⟨hv, _, build_eq_of_validate hv, result, hresult, hfigures⟩

end MarketSignals.Regime
