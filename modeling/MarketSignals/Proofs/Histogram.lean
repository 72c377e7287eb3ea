import Mathlib.Algebra.BigOperators.Fin
import Mathlib.Data.Nat.ModEq
import MarketSignals.Binning
import MarketSignals.Histogram

/-!
# Histograms of samples

`ofSamples` counts a list of samples afresh.  The two operations of a histogram
agree with it: counting one sample more appends it to the list, and taking one
out drops it, so a histogram that is kept up to date is the one that would be
counted from the samples.

Whatever the operations are used for, they keep the total the sum of the counts
in 64 bits, which is the sum itself if the counts fit.

## Main definitions

* `ofSamples` — the histogram of a list of samples.
* `Made` — the histograms that operations make.

## Main results

* `add?_ofSamples`, `remove_ofSamples` — the operations through the list.
* `sum_counts_ofSamples` — every sample is counted in exactly one bin.
* `Made.total_eq`, `Made.sum_counts` — the total is the sum of the counts.
-/

namespace MarketSignals

variable {b : Binning}

/-- Every sample has a bin. -/
theorem Binning.indexOf_lt (hb : 0 < b.nBins) (x : Float) : b.indexOf x < b.nBins := by
  have hle : b.indexOf x ≤ b.nBins - 1 := Nat.min_le_right _ _
  omega

namespace Histogram

/-! ## Words -/

theorem wrap_lt (n : ℕ) : wrap n < UInt64.size := Nat.mod_lt n (by decide)

theorem wrap_of_lt {n : ℕ} (hn : n < UInt64.size) : wrap n = n := Nat.mod_eq_of_lt hn

/-- Wrapping once at the end is wrapping at every step. -/
theorem wrap_wrap_add (n m : ℕ) : wrap (wrap n + m) = wrap (n + m) := Nat.mod_add_mod n _ m

theorem wrap_add_wrap (n m : ℕ) : wrap (n + wrap m) = wrap (n + m) := Nat.add_mod_mod n m _

/-- Adding the word of all ones takes one away. -/
theorem wrap_succ_add (n : ℕ) : wrap (n + 1 + (UInt64.size - 1)) = wrap n := by
  have hsize : 1 ≤ UInt64.size := by decide
  rw [Nat.add_assoc, Nat.add_sub_cancel' hsize]
  exact Nat.add_mod_right n _

/-! ## Histograms of samples -/

/-- The histogram of a list of samples. -/
def ofSamples (b : Binning) (xs : List Float) : Histogram :=
  ⟨Array.ofFn fun bin : Fin b.nBins => xs.countP (b.indexOf · == bin), wrap xs.length⟩

theorem total_ofSamples (b : Binning) {xs : List Float} (hxs : xs.length < UInt64.size) :
    (ofSamples b xs).total = xs.length := wrap_of_lt hxs

@[simp] theorem nBins_ofSamples (b : Binning) (xs : List Float) :
    (ofSamples b xs).nBins = b.nBins := by
  simp [ofSamples, nBins]

/-- A bin holds the number of samples that fall into it. -/
theorem getElem?_counts_ofSamples (b : Binning) (xs : List Float) {bin : Nat}
    (hbin : bin < b.nBins) :
    (ofSamples b xs).counts[bin]? = some (xs.countP (b.indexOf · == bin)) := by
  simp [ofSamples, hbin]

/-- Every sample is counted in exactly one bin. -/
theorem sum_counts_ofSamples (hb : 0 < b.nBins) (xs : List Float) :
    (ofSamples b xs).counts.sum = xs.length := by
  simp only [ofSamples]
  rw [← Array.sum_toList, Array.toList_ofFn, List.sum_ofFn]
  induction xs with
  | nil => simp
  | cons x xs ih =>
      have hone : ∑ bin : Fin b.nBins, (if (b.indexOf x == bin.val) = true then 1 else 0) = 1 := by
        have hx := Binning.indexOf_lt hb x
        rw [Finset.sum_eq_single ⟨b.indexOf x, hx⟩]
        · simp
        · intro bin _ hne
          rw [if_neg]
          intro heq
          exact hne (Fin.ext (eq_of_beq heq).symm)
        · intro hout
          exact absurd (Finset.mem_univ _) hout
      simp only [List.countP_cons, Finset.sum_add_distrib, List.length_cons, ih, hone]

theorem isConsistent_iff (h : Histogram) : h.isConsistent = true ↔ wrap h.counts.sum = h.total :=
  beq_iff_eq

theorem isConsistent_ofSamples (hb : 0 < b.nBins) (xs : List Float) :
    (ofSamples b xs).isConsistent = true := by
  rw [isConsistent_iff, sum_counts_ofSamples hb]
  rfl

theorem empty_eq_ofSamples (b : Binning) : empty b.nBins = ofSamples b [] := by
  have htotal : wrap ([] : List Float).length = 0 := wrap_of_lt (by decide)
  simp only [empty, ofSamples, mk.injEq, htotal, and_true]
  ext i hi hi'
  · simp
  · simp

/-- A sample more is one more in its bin. -/
theorem counts_ofSamples_append (b : Binning) (xs : List Float) (x : Float) :
    (ofSamples b (xs ++ [x])).counts = (ofSamples b xs).counts.modify (b.indexOf x) (· + 1) := by
  simp only [ofSamples]
  ext i hi hi'
  · simp
  · simp only [Array.getElem_modify, Array.getElem_ofFn, List.countP_append,
      List.countP_singleton]
    by_cases hbin : b.indexOf x = i
    · simp [hbin]
    · simp [hbin]

/-- No bin holds more samples than there are. -/
theorem getElem_counts_ofSamples_le (b : Binning) (xs : List Float) {bin : ℕ}
    (hbin : bin < (ofSamples b xs).counts.size) : (ofSamples b xs).counts[bin] ≤ xs.length := by
  simp only [ofSamples, Array.getElem_ofFn]
  exact List.countP_le_length

/-- Counting a sample adds it to the list, if the samples fit in 64 bits. -/
theorem add?_ofSamples (hb : 0 < b.nBins) {xs : List Float} (hxs : xs.length + 1 < UInt64.size)
    (x : Float) : (ofSamples b xs).add? (b.indexOf x) = some (ofSamples b (xs ++ [x])) := by
  have hx := Binning.indexOf_lt hb x
  have hbin : b.indexOf x < (ofSamples b xs).counts.size := by simpa [ofSamples] using hx
  -- No count wraps around, since none exceeds the number of samples.
  have hcounts : ((ofSamples b xs).counts.modify (b.indexOf x) fun n => wrap (n + 1)) =
      (ofSamples b (xs ++ [x])).counts := by
    have hle := getElem_counts_ofSamples_le b xs hbin
    rw [counts_ofSamples_append]
    ext i hi hi'
    · simp
    · simp only [Array.getElem_modify]
      split
      next heq =>
        subst heq
        exact wrap_of_lt (by omega)
      next => rfl
  have htotal : wrap ((ofSamples b xs).total + 1) = (ofSamples b (xs ++ [x])).total := by
    simp only [ofSamples, wrap_wrap_add, List.length_append, List.length_singleton]
  rw [add?, if_pos hbin, hcounts, htotal]

/-- Taking out the first sample drops it from the list. -/
theorem remove_ofSamples (hb : 0 < b.nBins) (x : Float) (xs : List Float) :
    (ofSamples b (x :: xs)).remove (b.indexOf x) = .ok (ofSamples b xs) := by
  have hx := Binning.indexOf_lt hb x
  have hcount : (ofSamples b (x :: xs)).counts[b.indexOf x]? =
      some (xs.countP (b.indexOf · == b.indexOf x) + 1) := by
    rw [getElem?_counts_ofSamples b _ hx, List.countP_cons]
    simp
  unfold remove
  rw [hcount]
  simp only [ofSamples, Except.ok.injEq, mk.injEq, List.length_cons, wrap_wrap_add, wrap_succ_add,
    and_true]
  ext i hi hi'
  · simp
  · have hsize : i < b.nBins := by simpa using hi'
    rw [Array.getElem_setIfInBounds (by simpa using hsize)]
    by_cases hbin : b.indexOf x = i
    · simp [hbin]
    · simp [hbin, List.countP_cons]

/-- Counts from elsewhere sum to their total. -/
theorem isConsistent_ofCounts (counts : List Nat) : (ofCounts counts).isConsistent = true :=
  (isConsistent_iff _).mpr rfl

theorem total_ofCounts (counts : List Nat) : (ofCounts counts).total = wrap counts.sum := by
  rw [← List.sum_toArray]
  rfl

/-- Counts may sum to nothing although there are samples. -/
example : (ofCounts [UInt64.size - 1, 1]).isEmpty = true := by decide

/-- Counts that are consistent give the histogram back. -/
theorem ofCounts_toList {h : Histogram} (hc : h.isConsistent = true) :
    ofCounts h.counts.toList = h := by
  rw [isConsistent_iff] at hc
  obtain ⟨counts, total⟩ := h
  simp only [ofCounts, mk.injEq, true_and]
  exact hc

/-! ## Histograms that operations make -/

/-- The histograms that operations make. -/
inductive Made : Histogram → Prop
  | empty (nBins : Nat) : Made (empty nBins)
  | ofCounts (counts : List Nat) : Made (ofCounts counts)
  | add {h h' : Histogram} {bin : Nat} (hmade : Made h) (hadd : h.add? bin = some h') : Made h'
  | remove {h h' : Histogram} {bin : Nat} (hmade : Made h) (hremove : h.remove bin = .ok h') :
      Made h'
  | clear {h : Histogram} (hmade : Made h) : Made h.clear

variable {h h' : Histogram} {bin : Nat}

/-- The other bins keep their part of the sum when one is given another count. -/
theorem sum_set_add (counts : List Nat) {bin : Nat} (hbin : bin < counts.length) (n : Nat) :
    (counts.set bin n).sum + counts[bin] = counts.sum + n := by
  have hsame := List.sum_set counts bin counts[bin]
  rw [List.set_getElem_self, if_pos hbin] at hsame
  rw [List.sum_set, if_pos hbin, hsame]
  omega

theorem sum_counts_empty (nBins : Nat) : (empty nBins).counts.sum = 0 := by
  rw [empty, ← Array.sum_toList, Array.toList_replicate, List.sum_replicate, nsmul_zero]

/-- One sample more. -/
theorem sum_counts_add? (hadd : h.add? bin = some h') :
    wrap h'.counts.sum = wrap (h.counts.sum + 1) ∧ h'.total = wrap (h.total + 1) := by
  unfold add? at hadd
  split at hadd
  next hbin =>
    cases hadd
    have hlength : bin < h.counts.toList.length := hbin
    have hsum := sum_set_add h.counts.toList hlength (wrap (h.counts.toList[bin] + 1))
    refine ⟨?_, rfl⟩
    rw [← Array.sum_toList, ← Array.sum_toList, Array.toList_modify, List.modify_eq_set,
      List.getElem?_eq_getElem hlength]
    show wrap (h.counts.toList.set bin (wrap (h.counts.toList[bin] + 1))).sum = _
    -- The two sums differ by what the bin held before, and by what it wrapped around.
    refine Nat.ModEq.add_right_cancel' h.counts.toList[bin] ?_
    show wrap _ = wrap _
    rw [hsum, wrap_add_wrap]
    congr 1
    omega
  · cases hadd

/-- One sample less. -/
theorem sum_counts_remove (hremove : h.remove bin = .ok h') :
    h'.counts.sum + 1 = h.counts.sum ∧ h'.total = wrap (h.total + (UInt64.size - 1)) := by
  unfold remove at hremove
  split at hremove
  next n hcount =>
    cases hremove
    obtain ⟨hbin, hn⟩ := Array.getElem?_eq_some_iff.mp hcount
    have hlength : bin < h.counts.toList.length := hbin
    have hsum := sum_set_add h.counts.toList hlength n
    rw [Array.getElem_toList, hn] at hsum
    refine ⟨?_, rfl⟩
    rw [← Array.sum_toList, ← Array.sum_toList, Array.toList_setIfInBounds]
    omega
  · cases hremove

/-- The total is the sum of the counts in 64 bits. -/
theorem Made.total_eq (hmade : h.Made) : h.total = wrap h.counts.sum := by
  induction hmade with
  | empty nBins =>
      rw [sum_counts_empty]
      rfl
  | ofCounts counts => rfl
  | add _ hadd ih =>
      obtain ⟨hsum, htotal⟩ := sum_counts_add? hadd
      rw [htotal, ih, wrap_wrap_add, hsum]
  | remove _ hremove ih =>
      obtain ⟨hsum, htotal⟩ := sum_counts_remove hremove
      rw [htotal, ih, wrap_wrap_add, ← hsum, wrap_succ_add]
  | clear _ _ =>
      rw [Histogram.clear, sum_counts_empty]
      rfl

/-- It is the sum itself if the counts fit in 64 bits together. -/
theorem Made.sum_counts (hmade : h.Made) (hfits : h.counts.sum < UInt64.size) :
    h.counts.sum = h.total := by
  rw [hmade.total_eq, wrap_of_lt hfits]

end Histogram

end MarketSignals
