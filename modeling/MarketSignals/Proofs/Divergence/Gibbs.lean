import Mathlib.InformationTheory.KullbackLeibler.KLFun
import MarketSignals.Proofs.Exact
import MarketSignals.Proofs.Histogram
import MarketSignals.Proofs.Divergence

/-!
# Smoothed shares are a distribution

In exact arithmetic the smoothed shares of a reference are positive and sum to one: every bin
is given as much as the norm takes back.  The shares of a window sum to one as well, though
some of them may be zero.  By Gibbs' inequality the divergence of the one from the other is
not negative, and it is zero only if the two agree in every bin.  Bins without samples in the
window add nothing to the divergence, yet they count: a reference that has a share there has
less of it elsewhere.

The last step of the divergence, which takes a sum below zero for zero, therefore only ever
undoes rounding.

## Main definitions

* `Histogram.count` — what a bin holds.
* `Divergence.Defined` — a window and a reference that can be compared.
* `Divergence.recentShare`, `Divergence.referenceShare` — the shares of a bin.
* `Divergence.Gibbs` — what the shares and their divergence are.

## Main results

* `divergenceTerm_eq_klFun` — what a bin adds.
* `Divergence.sum_divergenceTerm` — Gibbs' inequality for any shares.
* `Divergence.divergenceSum_eq` — the divergence as a sum over bins.
* `Divergence.smoothed_gibbs` — all histograms.
-/

namespace MarketSignals

open Finset
open InformationTheory (klFun klFun_apply klFun_nonneg klFun_eq_zero_iff)
open scoped Exact

/-! ## Bins -/

namespace Histogram

/-- What a bin holds: nothing, if there is no such bin. -/
def count (h : Histogram) (bin : ℕ) : ℕ := h.counts.getD bin 0

theorem toList_counts (h : Histogram) : h.counts.toList = (List.range h.nBins).map h.count := by
  refine List.ext_getElem (by simp [nBins]) fun bin hbin _ => ?_
  have hsize : bin < h.counts.size := by simpa using hbin
  simp [count, hsize]

/-- All that was counted is in some bin. -/
theorem sum_count (h : Histogram) : ∑ bin ∈ range h.nBins, h.count bin = h.counts.sum := by
  rw [← Array.sum_toList, toList_counts]
  rfl

end Histogram

/-! ## Gibbs' inequality -/

/-- A bin adds the difference of the shares, and more than that unless they agree. -/
theorem divergenceTerm_eq_klFun (p : ℝ) {q : ℝ} (hq : 0 < q) :
    divergenceTerm p q = q * klFun (p / q) + (p - q) := by
  show p * Real.log (p / q) = _
  rw [klFun_apply]
  field_simp
  ring

namespace Divergence

/-- Shares that sum to the same have a divergence that is not negative, and it is zero exactly
if they agree. -/
theorem sum_divergenceTerm {bins : Finset ℕ} {p q : ℕ → ℝ} (hp : ∀ bin ∈ bins, 0 ≤ p bin)
    (hq : ∀ bin ∈ bins, 0 < q bin) (hsum : ∑ bin ∈ bins, p bin = ∑ bin ∈ bins, q bin) :
    0 ≤ ∑ bin ∈ bins, divergenceTerm (p bin) (q bin) ∧
      (∑ bin ∈ bins, divergenceTerm (p bin) (q bin) = 0 ↔ ∀ bin ∈ bins, p bin = q bin) := by
  have hratio : ∀ bin ∈ bins, 0 ≤ p bin / q bin := fun bin hbin =>
    div_nonneg (hp bin hbin) (hq bin hbin).le
  have hexcess : ∀ bin ∈ bins, 0 ≤ q bin * klFun (p bin / q bin) := fun bin hbin =>
    mul_nonneg (hq bin hbin).le (klFun_nonneg (hratio bin hbin))
  have htotal : ∑ bin ∈ bins, divergenceTerm (p bin) (q bin) =
      ∑ bin ∈ bins, q bin * klFun (p bin / q bin) := by
    rw [sum_congr rfl fun bin hbin => divergenceTerm_eq_klFun (p bin) (hq bin hbin),
      sum_add_distrib, sum_sub_distrib, hsum, sub_self, add_zero]
  rw [htotal, sum_eq_zero_iff_of_nonneg hexcess]
  refine ⟨sum_nonneg hexcess, forall₂_congr fun bin hbin => ?_⟩
  have hpos := hq bin hbin
  rw [mul_eq_zero_iff_left hpos.ne', klFun_eq_zero_iff (hratio bin hbin), div_eq_one_iff_eq hpos.ne']

/-! ## Shares -/

/-- A window and a reference over the same bins, neither of them empty, with the sums of their
counts for totals. -/
structure Defined (recent reference : Histogram) : Prop where
  nBins : recent.nBins = reference.nBins
  sum_recent : recent.counts.sum = recent.total
  recent_pos : 0 < recent.total
  sum_reference : reference.counts.sum = reference.total
  reference_pos : 0 < reference.total

/-- Such are the histograms that operations make, if their counts fit in 64 bits together. -/
theorem Defined.of_made {recent reference : Histogram} (hrecent : recent.Made)
    (hreference : reference.Made) (hfits : recent.counts.sum < UInt64.size)
    (hfits' : reference.counts.sum < UInt64.size) (hbins : recent.nBins = reference.nBins)
    (hpos : 0 < recent.total) (hpos' : 0 < reference.total) : Defined recent reference :=
  ⟨hbins, hrecent.sum_counts hfits, hpos, hreference.sum_counts hfits', hpos'⟩

/-- The share that a bin has of the window. -/
noncomputable def recentShare (recent : Histogram) (bin : ℕ) : ℝ :=
  recent.count bin / recent.total

/-- The smoothed share that a bin has of the reference. -/
noncomputable def referenceShare (reference : Histogram) (epsilon : ℝ) (bin : ℕ) : ℝ :=
  smoothedShare reference.nBins reference.total epsilon (reference.count bin)

variable {recent reference : Histogram} {epsilon : ℝ}

theorem referenceShare_eq (reference : Histogram) (epsilon : ℝ) (bin : ℕ) :
    referenceShare reference epsilon bin =
      ((reference.count bin : ℝ) / reference.total + epsilon) / (1 + reference.nBins * epsilon) := by
  have hnorm : smoothingNorm reference.nBins epsilon = 1 + reference.nBins * epsilon :=
    congrArg (· + (reference.nBins : ℝ) * epsilon) Exact.one_eq
  rw [← hnorm]
  rfl

theorem norm_pos (reference : Histogram) (he : 0 < epsilon) : 0 < 1 + reference.nBins * epsilon :=
  add_pos_of_pos_of_nonneg one_pos (mul_nonneg (Nat.cast_nonneg _) he.le)

theorem referenceShare_pos (reference : Histogram) (he : 0 < epsilon) (bin : ℕ) :
    0 < referenceShare reference epsilon bin := by
  rw [referenceShare_eq]
  exact div_pos (add_pos_of_nonneg_of_pos (by positivity) he) (norm_pos reference he)

/-- What smoothing adds to the bins is what the norm takes back. -/
theorem sum_referenceShare (hsum : reference.counts.sum = reference.total)
    (hpos : 0 < reference.total) (he : 0 < epsilon) :
    ∑ bin ∈ range reference.nBins, referenceShare reference epsilon bin = 1 := by
  have htotal : (reference.total : ℝ) ≠ 0 := by positivity
  have hcounts : ∑ bin ∈ range reference.nBins, (reference.count bin : ℝ) = reference.total := by
    exact_mod_cast reference.sum_count.trans hsum
  simp only [referenceShare_eq]
  rw [← sum_div, sum_add_distrib, ← sum_div, hcounts, div_self htotal, sum_const, card_range,
    nsmul_eq_mul, div_self (norm_pos reference he).ne']

theorem recentShare_nonneg (recent : Histogram) (bin : ℕ) : 0 ≤ recentShare recent bin := by
  unfold recentShare
  positivity

theorem sum_recentShare (hsum : recent.counts.sum = recent.total) (hpos : 0 < recent.total) :
    ∑ bin ∈ range recent.nBins, recentShare recent bin = 1 := by
  have htotal : (recent.total : ℝ) ≠ 0 := by positivity
  have hcounts : ∑ bin ∈ range recent.nBins, (recent.count bin : ℝ) = recent.total := by
    exact_mod_cast recent.sum_count.trans hsum
  unfold recentShare
  rw [← sum_div, hcounts, div_self htotal]

/-! ## The divergence as a sum -/

theorem sum_filter_range (n : ℕ) (P : ℕ → Prop) [DecidablePred P] (f : ℕ → ℝ) :
    (((List.range n).filter P).map f).sum = ∑ bin ∈ range n with P bin, f bin := by
  rw [sum_filter]
  induction n with
  | zero => rfl
  | succ n ih =>
      rw [sum_range_succ, ← ih, List.range_succ, List.filter_append, List.map_append,
        List.sum_append]
      by_cases hn : P n
      · simp [hn]
      · simp [hn]

/-- The bins that the window has samples in, in order. -/
theorem populated_eq (hbins : recent.nBins = reference.nBins) :
    populated recent reference =
      ((List.range reference.nBins).filter fun bin => 0 < recent.count bin).map
        fun bin => (recent.count bin, reference.count bin) := by
  rw [populated, recent.toList_counts, reference.toList_counts, hbins, List.zip_map',
    List.filter_map]
  rfl

theorem divergenceSum_eq_sum (hbins : recent.nBins = reference.nBins) :
    divergenceSum recent reference epsilon =
      ∑ bin ∈ range reference.nBins with 0 < recent.count bin,
        recentShare recent bin *
          Real.log (recentShare recent bin / referenceShare reference epsilon bin) := by
  have hfold : divergenceSum recent reference epsilon =
      (populated recent reference).foldl (fun acc c =>
        acc + divergenceTerm ((c.1 : ℝ) / recent.total)
          (smoothedShare reference.nBins reference.total epsilon c.2)) 0 :=
    congrArg (fun zero : ℝ => (populated recent reference).foldl _ zero) Exact.zero_eq
  rw [hfold, populated_eq hbins, List.foldl_map, ← sum_filter_range, List.sum_eq_foldl,
    List.foldl_map]
  rfl

/-- A bin without samples in the window adds nothing. -/
theorem divergenceSum_eq_sum_all (hbins : recent.nBins = reference.nBins) :
    divergenceSum recent reference epsilon = ∑ bin ∈ range reference.nBins,
      divergenceTerm (recentShare recent bin) (referenceShare reference epsilon bin) := by
  rw [divergenceSum_eq_sum hbins, sum_filter]
  refine sum_congr rfl fun bin _ => ?_
  split
  next => rfl
  next hempty =>
    have hshare : recentShare recent bin = 0 := by
      rw [recentShare, Nat.eq_zero_of_not_pos hempty, Nat.cast_zero, zero_div]
    rw [hshare]
    exact (zero_mul _).symm

/-! ## All histograms -/

/-- The smoothed shares are a distribution, and the divergence of the shares of a window from
them, summed over the bins that the window has samples in, is not negative: what is clamped is
the sum itself.  It is zero exactly if the shares agree in every bin. -/
structure Gibbs (recent reference : Histogram) (epsilon : ℝ) : Prop where
  share_eq : ∀ bin, referenceShare reference epsilon bin =
    ((reference.count bin : ℝ) / reference.total + epsilon) / (1 + reference.nBins * epsilon)
  share_pos : ∀ bin, 0 < referenceShare reference epsilon bin
  share_sum : ∑ bin ∈ range reference.nBins, referenceShare reference epsilon bin = 1
  sum_eq : divergenceSum recent reference epsilon =
    ∑ bin ∈ range reference.nBins with 0 < recent.count bin,
      recentShare recent bin *
        Real.log (recentShare recent bin / referenceShare reference epsilon bin)
  sum_nonneg : 0 ≤ divergenceSum recent reference epsilon
  clamped : smoothedDivergence recent reference epsilon = divergenceSum recent reference epsilon
  sum_eq_zero_iff : divergenceSum recent reference epsilon = 0 ↔
    ∀ bin < reference.nBins, recentShare recent bin = referenceShare reference epsilon bin

/-- Every window and every reference that can be compared, at every smoothing. -/
theorem smoothed_gibbs (h : Defined recent reference) (he : 0 < epsilon) :
    Gibbs recent reference epsilon := by
  have hshares : ∑ bin ∈ range reference.nBins, recentShare recent bin =
      ∑ bin ∈ range reference.nBins, referenceShare reference epsilon bin := by
    rw [sum_referenceShare h.sum_reference h.reference_pos he, ← h.nBins,
      sum_recentShare h.sum_recent h.recent_pos]
  obtain ⟨hnonneg, hzero⟩ := sum_divergenceTerm (fun bin _ => recentShare_nonneg recent bin)
    (fun bin _ => referenceShare_pos reference he bin) hshares
  rw [← divergenceSum_eq_sum_all h.nBins] at hnonneg hzero
  refine ⟨referenceShare_eq reference epsilon, referenceShare_pos reference he,
    sum_referenceShare h.sum_reference h.reference_pos he, divergenceSum_eq_sum h.nBins, hnonneg,
    ?_, ?_⟩
  · unfold smoothedDivergence
    simp only [Exact.zero_eq]
    split
    next => rfl
    next hle => exact le_antisymm hnonneg (not_lt.mp hle)
  · rw [hzero]
    exact forall_congr' fun bin => imp_congr_left mem_range

/-- A reference that never saw its second bin, smoothed by a quarter: its shares are five sixths
and one sixth.  A window of five and one has these very shares; a window that leaves the second
bin out as well diverges, though that bin adds nothing. -/
theorem smoothed_gibbs_unseen :
    let reference := Histogram.ofCounts [10, 0]
    let matching := Histogram.ofCounts [5, 1]
    let narrow := Histogram.ofCounts [6, 0]
    Defined matching reference ∧ Defined narrow reference ∧ (0 : ℝ) < 1 / 4 ∧
      Gibbs matching reference (1 / 4) ∧ divergenceSum matching reference (1 / 4 : ℝ) = 0 ∧
      Gibbs narrow reference (1 / 4) ∧ 0 < divergenceSum narrow reference (1 / 4 : ℝ) := by
  intro reference matching narrow
  have hmatching : Defined matching reference :=
    .of_made (.ofCounts _) (.ofCounts _) (by decide) (by decide) rfl (by decide) (by decide)
  have hnarrow : Defined narrow reference :=
    .of_made (.ofCounts _) (.ofCounts _) (by decide) (by decide) rfl (by decide) (by decide)
  have hquarter : (0 : ℝ) < 1 / 4 := by norm_num
  have hagree := smoothed_gibbs hmatching hquarter
  have hdiffer := smoothed_gibbs hnarrow hquarter
  refine ⟨hmatching, hnarrow, hquarter, hagree, hagree.sum_eq_zero_iff.mpr ?_, hdiffer, ?_⟩
  · intro bin hbin
    have hbin : bin < 2 := hbin
    rw [hagree.share_eq]
    interval_cases bin
    · show ((5 : ℕ) : ℝ) / (6 : ℕ) = ((10 : ℕ) / (10 : ℕ) + 1 / 4) / (1 + (2 : ℕ) * (1 / 4))
      norm_num
    · show ((1 : ℕ) : ℝ) / (6 : ℕ) = ((0 : ℕ) / (10 : ℕ) + 1 / 4) / (1 + (2 : ℕ) * (1 / 4))
      norm_num
  · refine lt_of_le_of_ne hdiffer.sum_nonneg fun hzero => ?_
    have hsecond := hdiffer.sum_eq_zero_iff.mp hzero.symm 1 (by decide)
    have hnone : recentShare narrow 1 = 0 := by
      show ((0 : ℕ) : ℝ) / (6 : ℕ) = 0
      norm_num
    rw [hnone] at hsecond
    exact absurd hsecond.symm (hdiffer.share_pos 1).ne'

end Divergence

end MarketSignals
