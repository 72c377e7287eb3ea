import MarketSignals.Proofs.Binning
import MarketSignals.Proofs.Float.Whole

/-!
# Order and the ends of a range

Of two samples the lower one never has the higher bin, whatever is rounded on the way, and
below the range is the first bin.  That the last bin takes what lies at the upper end and
beyond needs two things of the range: its length has a float, and that float is long enough
for its share in the bins not to be rounded up past it.  A range of ordinary length has both.

## Main definitions

* `Binning.extent`, `Binning.span`, `Binning.width` — the length of a range, the float that
  is computed for it, and the float that is computed for the width of a bin.
* `Binning.binAt` — the bin of a sample by its exact distance from the lower end.

## Main results

* `indexOf_eq_binAt` — the computed bin through the exact distance.
* `binAt_mono` — which keeps the order.
* `binAt_extent_iff` — when the upper end lies in the last bin.
* `ordered_and_held` — these together.
-/

namespace MarketSignals.Binning

open Rounding

variable {b : Binning} {x y : Float} {q r : ℚ}

/-! ## Lengths -/

/-- How far a sample lies above the lower end. -/
def offset (b : Binning) (x : Float) : ℚ := value x - value b.min

/-- The length of the range. -/
def extent (b : Binning) : ℚ := b.offset b.max

/-- The length of the range as it is computed. -/
def span (b : Binning) : Float := b.max - b.min

/-- The width of a bin as it is computed. -/
def width (b : Binning) : Float := b.span / Float.ofNat b.nBins

theorem indexOf_eq (b : Binning) (x : Float) :
    b.indexOf x = Nat.min ((x - b.min) / b.width).toUInt64.toNat (b.nBins - 1) := rfl

theorem offset_mono (hx : x.isFinite = true) (hy : y.isFinite = true) (h : x ≤ y) :
    b.offset x ≤ b.offset y :=
  sub_le_sub_right ((le_iff_value hx hy).mp h) _

namespace Proper

variable (hb : b.Proper)
include hb

theorem offset_neg (hx : x.isFinite = true) (h : x < b.min) : b.offset x < 0 :=
  sub_neg.mpr ((lt_iff_value hx hb.min).mp h)

theorem least_le_extent : 2 ^ (-1074 : ℤ) ≤ b.extent :=
  least_le_sub hb.min hb.max ((lt_iff_value hb.min hb.max).mp hb.lt)

theorem extent_pos : 0 < b.extent := (Decimal.two_zpow_pos _).trans_le hb.least_le_extent

theorem roundsTo_span : RoundsTo b.span b.extent := roundsTo_sub hb.max hb.min

theorem span_cases :
    (b.span.isFinite = true ∧ b.extent < overflowPoint ∧ value b.span = rounded b.extent) ∨
      (b.span = infinity ∧ overflowPoint ≤ b.extent) :=
  hb.roundsTo_span.cases_of_nonneg hb.extent_pos.le

theorem least_le_span (hspan : b.span.isFinite = true) :
    2 ^ (-1074 : ℤ) ≤ value b.span := by
  rw [hb.roundsTo_span.value_eq hspan, ← rounded_two_zpow (t := -1074) (by decide)]
  exact rounded_mono hb.least_le_extent

theorem span_pos (hspan : b.span.isFinite = true) : 0 < value b.span :=
  (Decimal.two_zpow_pos _).trans_le (hb.least_le_span hspan)

end Proper

/-! ## The width of a bin -/

section Width

variable (hb : b.Proper) (hn : b.nBins ≤ Regime.maxBins)
include hb hn

theorem nBins_cast : (Float.ofNat b.nBins).isFinite = true ∧
    value (Float.ofNat b.nBins) = b.nBins ∧ (0 : ℚ) < b.nBins := by
  obtain ⟨hfinite, hvalue⟩ := value_ofNat (n := b.nBins) (hn.trans_lt (by decide))
  have hbins := hb.nBins
  exact ⟨hfinite, hvalue, by exact_mod_cast Nat.lt_of_lt_of_le (by decide) hbins⟩

/-- A range without a float for its length has none for the width of its bins. -/
theorem width_of_infinite (hspan : b.span = infinity) : b.width = infinity := by
  obtain ⟨hcount, hvalue, hpos⟩ := nBins_cast hb hn
  rw [width, hspan]
  exact infinity_div hcount (hvalue ▸ hpos)

theorem roundsTo_width (hspan : b.span.isFinite = true) :
    RoundsTo b.width (value b.span / b.nBins) := by
  obtain ⟨hcount, hvalue, hpos⟩ := nBins_cast hb hn
  rw [← hvalue]
  exact roundsTo_div hspan hcount (hvalue ▸ hpos.ne')

/-- The share of a bin is not longer than the range. -/
theorem width_finite (hspan : b.span.isFinite = true) : b.width.isFinite = true := by
  have hone : (1 : ℚ) ≤ b.nBins := by exact_mod_cast Nat.le_of_lt hb.nBins
  have hpos := hb.span_pos hspan
  rw [(roundsTo_width hb hn hspan).finite_iff, abs_of_pos (div_pos hpos (by linarith))]
  calc value b.span / b.nBins ≤ value b.span := div_le_self hpos.le hone
    _ ≤ |value b.span| := le_abs_self _
    _ < overflowPoint := abs_value_lt hspan

theorem value_width (hspan : b.span.isFinite = true) :
    value b.width = rounded (value b.span / b.nBins) :=
  (roundsTo_width hb hn hspan).value_eq (width_finite hb hn hspan)

theorem width_nonneg (hspan : b.span.isFinite = true) : 0 ≤ value b.width := by
  rw [value_width hb hn hspan]
  exact rounded_nonneg (div_nonneg (hb.span_pos hspan).le (Nat.cast_nonneg _))

/-- A width that is too small for a float is the zero without a sign. -/
theorem width_eq_zero (hspan : b.span.isFinite = true) (hzero : value b.width = 0) :
    b.width = 0 := by
  obtain ⟨hcount, hvalue, hpos⟩ := nBins_cast hb hn
  exact div_eq_zero_of_pos hspan (hb.span_pos hspan) hcount (hvalue ▸ hpos)
    (width_finite hb hn hspan) hzero

/-- A share that has all its bits is rounded up by a small part of it, so that all bins but
one are not longer than the range. -/
theorem lastPlace_share_of_lt (hspan : b.span.isFinite = true)
    (h : value b.span < (b.nBins - 1) * value b.width) :
    lastPlace (value b.span / b.nBins) = -1074 := by
  obtain ⟨-, -, hcount⟩ := nBins_cast hb hn
  have hless : (0 : ℚ) ≤ b.nBins - 1 := sub_nonneg.mpr (by exact_mod_cast Nat.le_of_lt hb.nBins)
  have hshare : 0 < value b.span / b.nBins := div_pos (hb.span_pos hspan) hcount
  have hgain : (b.nBins : ℚ) * 2 ^ (-53 : ℤ) ≤ 1 := by
    rw [zpow_neg, ← div_eq_mul_inv, div_le_one (Decimal.two_zpow_pos _)]
    exact_mod_cast hn.trans (by decide)
  have hsmall : (0 : ℚ) < 2 ^ (-53 : ℤ) := Decimal.two_zpow_pos _
  by_contra hplace
  have hupper : value b.width ≤ value b.span / b.nBins * (1 + 2 ^ (-53 : ℤ)) := by
    have herror := (abs_le.mp (abs_rounded_sub_le hshare.le)).2.trans (half_unit_le hshare hplace)
    rw [← value_width hb hn hspan] at herror
    linarith
  refine absurd h (not_lt.mpr ?_)
  calc (b.nBins - 1) * value b.width
      ≤ (b.nBins - 1) * (value b.span / b.nBins * (1 + 2 ^ (-53 : ℤ))) :=
        mul_le_mul_of_nonneg_left hupper hless
    _ = value b.span / b.nBins * ((b.nBins - 1) * (1 + 2 ^ (-53 : ℤ))) := by ring
    _ ≤ value b.span / b.nBins * b.nBins := mul_le_mul_of_nonneg_left (by linarith) hshare.le
    _ = value b.span := div_mul_cancel₀ _ hcount.ne'

/-- Any other one is rounded up by half the least float at most: if all bins but one are
longer than the range, there are few units in either. -/
theorem counts_of_lt (hspan : b.span.isFinite = true)
    (h : value b.span < (b.nBins - 1) * value b.width) :
    ∃ j k : ℤ, value b.width = j * 2 ^ (-1074 : ℤ) ∧ value b.span = k * 2 ^ (-1074 : ℤ) ∧
      k + 1 ≤ (b.nBins - 1) * j ∧ 2 * j + 2 ≤ b.nBins := by
  obtain ⟨-, -, hcount⟩ := nBins_cast hb hn
  have hshare : 0 ≤ value b.span / b.nBins := div_nonneg (hb.span_pos hspan).le hcount.le
  have herror := (abs_le.mp (abs_rounded_sub_le hshare)).2
  obtain ⟨j, hj⟩ := exists_count (width_finite hb hn hspan)
  obtain ⟨k, hk⟩ := exists_count hspan
  have hunit : (0 : ℚ) < 2 ^ (-1074 : ℤ) := Decimal.two_zpow_pos _
  rw [← value_width hb hn hspan, lastPlace_share_of_lt hb hn hspan h,
    zpow_sub_one₀ (by norm_num), hj, hk] at herror
  rw [hj, hk] at h
  refine ⟨j, k, hj, hk, ?_⟩
  generalize (2 : ℚ) ^ (-1074 : ℤ) = unit at h herror hunit
  have hshort : k < (b.nBins - 1) * j := by
    rw [← mul_assoc] at h
    exact_mod_cast lt_of_mul_lt_mul_right h hunit.le
  have hmiddle : (j : ℚ) ≤ k / b.nBins + 1 / 2 := by
    refine le_of_mul_le_mul_right ?_ hunit
    rw [add_mul, div_mul_eq_mul_div]
    linarith
  have hmiddle : (2 * b.nBins * j : ℚ) ≤ 2 * k + b.nBins := by
    have hscaled := mul_le_mul_of_nonneg_left hmiddle (mul_nonneg zero_le_two hcount.le)
    field_simp at hscaled
    linarith
  have hmiddle : 2 * ((b.nBins : ℤ) * j) ≤ 2 * k + b.nBins := by
    rw [← mul_assoc]
    exact_mod_cast hmiddle
  rw [sub_mul, one_mul] at hshort ⊢
  omega

end Width

/-! ## The bin by the exact distance -/

/-- The bin of a sample by its exact distance from the lower end, where the width of a bin
has a float. -/
def binAt (b : Binning) (q : ℚ) : ℕ :=
  if overflowPoint ≤ q then b.nBins - 1
  else if value b.width = 0 then if 0 < rounded q then b.nBins - 1 else 0
  else Nat.min ⌊rounded (rounded q / value b.width)⌋₊ (b.nBins - 1)

theorem binAt_le (b : Binning) (q : ℚ) : b.binAt q ≤ b.nBins - 1 := by
  unfold binAt
  split_ifs
  · exact Nat.le_refl _
  · exact Nat.le_refl _
  · exact Nat.zero_le _
  · exact Nat.min_le_right _ _

/-- Nothing below the lower end is above the first bin. -/
theorem binAt_of_neg (hwidth : 0 ≤ value b.width) (hq : q < 0) : b.binAt q = 0 := by
  have hrounded : rounded q ≤ 0 := rounded_zero ▸ rounded_mono hq.le
  unfold binAt
  rw [if_neg (not_le.mpr (hq.trans overflowPoint_pos)), if_neg (not_lt.mpr hrounded)]
  split_ifs
  · rfl
  · have hposition : rounded (rounded q / value b.width) ≤ 0 :=
      rounded_zero ▸ rounded_mono (div_nonpos_of_nonpos_of_nonneg hrounded hwidth)
    rw [Nat.floor_of_nonpos hposition]
    exact Nat.zero_min _

/-- Each step of the way to the bin keeps the order. -/
theorem binAt_mono (hwidth : 0 ≤ value b.width) : Monotone b.binAt := by
  intro q r hqr
  have hrounded : rounded q ≤ rounded r := rounded_mono hqr
  unfold binAt
  by_cases hr : overflowPoint ≤ r
  · rw [if_pos hr]
    exact binAt_le b q
  rw [if_neg hr, if_neg (fun hq => hr (hq.trans hqr))]
  by_cases hzero : value b.width = 0
  · rw [if_pos hzero, if_pos hzero]
    by_cases hq : 0 < rounded q
    · rw [if_pos hq, if_pos (hq.trans_le hrounded)]
    · rw [if_neg hq]
      exact Nat.zero_le _
  · rw [if_neg hzero, if_neg hzero]
    have hposition := rounded_mono (div_le_div_of_nonneg_right hrounded hwidth)
    exact min_le_min_right _ (Nat.floor_mono hposition)

/-- A quotient of few units that is below a whole number is so much below that it is not
rounded up to it. -/
theorem rounded_div_lt {j k : ℤ} {m : ℕ} (hj : 0 < j) (hjlt : j < 2 ^ 15) (hm : 0 < m)
    (hmlt : m < 2 ^ 16) (h : k + 1 ≤ m * j) : rounded (k / j) < m := by
  have hjpos : (0 : ℚ) < j := by exact_mod_cast hj
  have hunit : (0 : ℚ) < 2 ^ (-15 : ℤ) := Decimal.two_zpow_pos _
  have hbelow : ((m * 2 ^ 15 - 1 : ℕ) : ℚ) * 2 ^ (-15 : ℤ) = m - 2 ^ (-15 : ℤ) := by
    rw [Nat.cast_sub (by omega)]
    push_cast
    norm_num
    ring
  have hquotient : (k : ℚ) / j ≤ m - 2 ^ (-15 : ℤ) := by
    have hless : (k : ℚ) + 1 ≤ m * j := by exact_mod_cast h
    have hone : 2 ^ (-15 : ℤ) * (j : ℚ) ≤ 1 := by
      rw [zpow_neg, inv_mul_le_one₀ (Decimal.two_zpow_pos _)]
      exact_mod_cast hjlt.le
    rw [div_le_iff₀ hjpos, sub_mul]
    linarith
  calc rounded (k / j) ≤ rounded (((m * 2 ^ 15 - 1 : ℕ) : ℚ) * 2 ^ (-15 : ℤ)) :=
        rounded_mono (hquotient.trans_eq hbelow.symm)
    _ = m - 2 ^ (-15 : ℤ) := by rw [rounded_natCast_mul (by omega) (by decide), hbelow]
    _ < m := sub_lt_self _ hunit

section Bins

variable (hb : b.Proper) (hn : b.nBins ≤ Regime.maxBins)

include hb in
theorem last_cast : ((b.nBins - 1 : ℕ) : ℚ) = b.nBins - 1 := by
  rw [Nat.cast_sub (Nat.le_of_lt hb.nBins), Nat.cast_one]

include hn in
/-- The last bin is reached before the greatest count. -/
theorem min_min_last (n : ℕ) :
    Nat.min (n ⊓ (UInt64.size - 1)) (b.nBins - 1) = Nat.min n (b.nBins - 1) := by
  have hsize : b.nBins - 1 ≤ UInt64.size - 1 := Nat.sub_le_sub_right (hn.trans (by decide)) 1
  exact (min_assoc _ _ _).trans (congrArg (Nat.min n) (min_eq_right hsize))

include hb hn

/-- A width without a float leaves nothing but zeros and what is not a number. -/
theorem indexOf_of_infinite (hspan : b.span = infinity) (hx : x.isFinite = true) :
    b.indexOf x = 0 := by
  rw [indexOf_eq, width_of_infinite hb hn hspan]
  rcases (roundsTo_sub hx hb.min).cases with ⟨ho, -, -⟩ | ⟨ho, -⟩ | ⟨ho, -⟩
  · rcases div_infinity ho with hzero | hzero
    · rw [hzero]
      exact Nat.zero_min _
    · rw [hzero]
      exact Nat.zero_min _
  · rw [ho]
    exact Nat.zero_min _
  · rw [ho]
    exact Nat.zero_min _

variable (hspan : b.span.isFinite = true)
include hspan

/-- An infinite distance is an infinite number of bins. -/
theorem infinity_div_width : infinity / b.width = infinity := by
  rcases (width_nonneg hb hn hspan).eq_or_lt with hzero | hpos
  · rw [width_eq_zero hb hn hspan hzero.symm]
    rfl
  · exact infinity_div (width_finite hb hn hspan) hpos

theorem neg_infinity_div_width : -infinity / b.width = -infinity := by
  rcases (width_nonneg hb hn hspan).eq_or_lt with hzero | hpos
  · rw [width_eq_zero hb hn hspan hzero.symm]
    rfl
  · exact neg_infinity_div (width_finite hb hn hspan) hpos

/-- The computed bin is the one of the exact distance. -/
theorem indexOf_eq_binAt (hx : x.isFinite = true) : b.indexOf x = b.binAt (b.offset x) := by
  have hlast : Nat.min (UInt64.size - 1) (b.nBins - 1) = b.nBins - 1 :=
    Nat.min_eq_right (Nat.sub_le_sub_right (hn.trans (by decide)) 1)
  have hround : RoundsTo (x - b.min) (b.offset x) := roundsTo_sub hx hb.min
  rcases hround.cases with ⟨ho, hlt, hvalue⟩ | ⟨ho, hq⟩ | ⟨ho, hq⟩
  · rw [indexOf_eq, binAt, if_neg (not_le.mpr ((le_abs_self _).trans_lt hlt)), ← hvalue]
    by_cases hzero : value b.width = 0
    · rw [if_pos hzero, width_eq_zero hb hn hspan hzero, div_zero_eq ho]
      split_ifs
      · exact hlast
      · exact Nat.zero_min _
      · exact Nat.zero_min _
    · rw [if_neg hzero, (roundsTo_div ho (width_finite hb hn hspan) hzero).toNat_toUInt64,
        min_min_last hn]
  · rw [indexOf_eq, ho, infinity_div_width hb hn hspan, binAt, if_pos hq]
    exact hlast
  · have hneg : b.offset x < 0 := hq.trans_lt (neg_neg_of_pos overflowPoint_pos)
    rw [indexOf_eq, ho, neg_infinity_div_width hb hn hspan,
      binAt_of_neg (width_nonneg hb hn hspan) hneg]
    exact Nat.zero_min _

/-! ## The upper end -/

/-- The quotient is not rounded up to the last bin: where it lies below, there are few units
in the range and in the width. -/
theorem last_le_rounded_iff (hzero : value b.width ≠ 0) :
    ((b.nBins - 1 : ℕ) : ℚ) ≤ rounded (value b.span / value b.width) ↔
      (b.nBins - 1) * value b.width ≤ value b.span := by
  have hpos : 0 < value b.width := (width_nonneg hb hn hspan).lt_of_ne' hzero
  have hbins := hb.nBins
  unfold Regime.maxBins at hn
  constructor
  · intro h
    by_contra hshort
    obtain ⟨j, k, hj, hk, hless, hfew⟩ := counts_of_lt hb hn hspan (not_le.mp hshort)
    have hunit : (0 : ℚ) < 2 ^ (-1074 : ℤ) := Decimal.two_zpow_pos _
    rw [hj] at hpos
    have hjpos : 0 < j := by exact_mod_cast (pos_iff_pos_of_mul_pos hpos).mpr hunit
    rw [hj, hk, mul_div_mul_right _ _ hunit.ne'] at h
    refine absurd h (not_le.mpr (rounded_div_lt hjpos (by omega) (by omega) (by omega) ?_))
    rw [Nat.cast_sub (by omega), Nat.cast_one]
    exact hless
  · intro h
    rw [← rounded_natCast (n := b.nBins - 1) (by omega)]
    refine rounded_mono ?_
    rw [last_cast hb, le_div_iff₀ hpos]
    exact h

/-- The upper end lies in the last bin exactly if all bins but one, of the computed width,
are not longer than the computed range. -/
theorem binAt_extent_iff :
    b.binAt b.extent = b.nBins - 1 ↔ (b.nBins - 1) * value b.width ≤ value b.span := by
  have hlt : ¬ overflowPoint ≤ b.extent := by
    rcases hb.span_cases with ⟨-, hlt, -⟩ | ⟨hinfinite, -⟩
    · exact not_le.mpr hlt
    · rw [hinfinite] at hspan
      cases hspan
  have hpos := hb.span_pos hspan
  rw [binAt, if_neg hlt, ← hb.roundsTo_span.value_eq hspan, if_pos hpos]
  by_cases hzero : value b.width = 0
  · rw [if_pos hzero, hzero, mul_zero]
    exact iff_of_true rfl hpos.le
  · have hposition : 0 ≤ rounded (value b.span / value b.width) :=
      rounded_nonneg (div_nonneg hpos.le (width_nonneg hb hn hspan))
    rw [if_neg hzero, ← last_le_rounded_iff hb hn hspan hzero, ← Nat.le_floor_iff hposition]
    exact min_eq_right_iff

/-- It does if the range is as long as `2 ^ 31` of the least float: there are fewer pairs of
bins than that. -/
theorem width_le_of_extent (hextent : 2 ^ (-1043 : ℤ) ≤ b.extent) :
    (b.nBins - 1) * value b.width ≤ value b.span := by
  by_contra hshort
  obtain ⟨j, k, hj, hk, hless, hfew⟩ := counts_of_lt hb hn hspan (not_le.mp hshort)
  have hlong : 2 ^ 31 * 2 ^ (-1074 : ℤ) ≤ (k : ℚ) * 2 ^ (-1074 : ℤ) := by
    calc (2 : ℚ) ^ 31 * 2 ^ (-1074 : ℤ) = 2 ^ (-1043 : ℤ) := by
          rw [← zpow_natCast, ← zpow_add₀ (by norm_num)]
          rfl
      _ = rounded (2 ^ (-1043 : ℤ)) := (rounded_two_zpow (by decide)).symm
      _ ≤ rounded b.extent := rounded_mono hextent
      _ = (k : ℚ) * 2 ^ (-1074 : ℤ) := by rw [← hb.roundsTo_span.value_eq hspan, hk]
  have hlong : (2 : ℤ) ^ 31 ≤ k := by
    exact_mod_cast le_of_mul_le_mul_right hlong (Decimal.two_zpow_pos _)
  have hnonneg : 0 ≤ j := by
    have hwidth := width_nonneg hb hn hspan
    rw [hj] at hwidth
    exact_mod_cast nonneg_of_mul_nonneg_left hwidth (Decimal.two_zpow_pos _)
  unfold Regime.maxBins at hn
  have hbound : ((b.nBins : ℤ) - 1) * j ≤ 2 ^ 16 * 2 ^ 15 :=
    mul_le_mul (by omega) (by omega) hnonneg (by norm_num)
  omega

end Bins

/-! ## All bins that are made -/

/-- Accepted settings make bins of a number that is bounded. -/
theorem of?_of_validate {c : Regime.Config} (h : c.validate = .ok b) :
    of? c.domainMin c.domainMax c.nBins = some b ∧ c.nBins ≤ Regime.maxBins := by
  obtain ⟨hn, hbinning, -⟩ := Regime.validate_eq_ok_iff.mp h
  refine ⟨?_, hn⟩
  unfold Regime.Config.binning at hbinning
  split at hbinning
  next b' hb' =>
    cases hbinning
    exact hb'
  · cases hbinning

section Made

variable (hb : b.Proper) (hn : b.nBins ≤ Regime.maxBins)
include hb hn

theorem indexOf_mono (hx : x.isFinite = true) (hy : y.isFinite = true) (h : x ≤ y) :
    b.indexOf x ≤ b.indexOf y := by
  rcases hb.span_cases with ⟨hspan, -, -⟩ | ⟨hinfinite, -⟩
  · rw [indexOf_eq_binAt hb hn hspan hx, indexOf_eq_binAt hb hn hspan hy]
    exact binAt_mono (width_nonneg hb hn hspan) (offset_mono hx hy h)
  · rw [indexOf_of_infinite hb hn hinfinite hx]
    exact Nat.zero_le _

theorem indexOf_of_lt_min (hx : x.isFinite = true) (h : x < b.min) : b.indexOf x = 0 := by
  rcases hb.span_cases with ⟨hspan, -, -⟩ | ⟨hinfinite, -⟩
  · rw [indexOf_eq_binAt hb hn hspan hx]
    exact binAt_of_neg (width_nonneg hb hn hspan) (hb.offset_neg hx h)
  · exact indexOf_of_infinite hb hn hinfinite hx

/-- The upper end decides for all that is beyond. -/
theorem held_iff :
    (∀ x : Float, x.isFinite = true → b.max ≤ x → b.indexOf x = b.nBins - 1) ↔
      b.span.isFinite = true ∧ (b.nBins - 1) * value b.width ≤ value b.span := by
  have hbins := hb.nBins
  have hmax : b.max ≤ b.max := (le_iff_value hb.max hb.max).mpr le_rfl
  rcases hb.span_cases with ⟨hspan, -, -⟩ | ⟨hinfinite, -⟩
  · rw [and_iff_right hspan, ← binAt_extent_iff hb hn hspan]
    constructor
    · intro h
      rw [← h b.max hb.max hmax, indexOf_eq_binAt hb hn hspan hb.max]
      rfl
    · intro h x hx hle
      refine Nat.le_antisymm (Nat.le_sub_one_of_lt (indexOf_lt (by omega) x)) ?_
      rw [← h, indexOf_eq_binAt hb hn hspan hx]
      exact binAt_mono (width_nonneg hb hn hspan) (offset_mono hb.max hx hle)
  · refine iff_of_false ?_ ?_
    · intro h
      have hlast := h b.max hb.max hmax
      rw [indexOf_of_infinite hb hn hinfinite hb.max] at hlast
      omega
    · rw [hinfinite]
      exact fun h => absurd h.1 (by decide)

end Made

/-- Bins that are made from a range and a number of bins that settings may ask for, and the
bins of all accepted settings among them, keep the order of samples and take what is below
the range into the first bin:

1. accepted settings make such bins;
2. of two samples the lower one does not have the higher bin, and there is such a bin;
3. a sample below the range has the first bin;
4. the last bin takes the upper end and all beyond exactly if the length of the range has a
   float, and all bins but one, of the computed width, are not longer than that;
5. if the length has no float, every sample has the first bin;
6. the last bin does take them if the length is that of `2 ^ 31` least floats or more, and is
   in range. -/
theorem ordered_and_held {min max : Float} {n : ℕ} (hb : of? min max n = some b)
    (hn : n ≤ Regime.maxBins) :
    (∀ c : Regime.Config, ∀ b', c.validate = .ok b' →
      of? c.domainMin c.domainMax c.nBins = some b' ∧ c.nBins ≤ Regime.maxBins) ∧
    (∀ x y : Float, x.isFinite = true → y.isFinite = true → x ≤ y →
      b.indexOf x ≤ b.indexOf y ∧ b.indexOf y < n) ∧
    (∀ x : Float, x.isFinite = true → x < min → b.indexOf x = 0) ∧
    ((∀ x : Float, x.isFinite = true → max ≤ x → b.indexOf x = n - 1) ↔
      b.span.isFinite = true ∧ (n - 1) * value b.width ≤ value b.span) ∧
    (b.span.isFinite = false → ∀ x : Float, x.isFinite = true → b.indexOf x = 0) ∧
    (2 ^ (-1043 : ℤ) ≤ value max - value min → value max - value min < overflowPoint →
      ∀ x : Float, x.isFinite = true → max ≤ x → b.indexOf x = n - 1) := by
  obtain ⟨rfl, hproper⟩ := of?_eq_some_iff.mp hb
  have hbins := hproper.nBins
  have hheld := held_iff hproper hn
  refine ⟨fun c b' h => of?_of_validate h, ?_, ?_, hheld, ?_, ?_⟩
  · intro x y hx hy h
    exact ⟨indexOf_mono hproper hn hx hy h, indexOf_lt (by omega) y⟩
  · intro x hx h
    exact indexOf_of_lt_min hproper hn hx h
  · intro hspan x hx
    rcases hproper.span_cases with ⟨hfinite, -, -⟩ | ⟨hinfinite, -⟩
    · rw [hspan] at hfinite
      cases hfinite
    · exact indexOf_of_infinite hproper hn hinfinite hx
  · intro hlong hshort
    have hspan : (Binning.span ⟨min, max, n⟩).isFinite = true := by
      rw [hproper.roundsTo_span.finite_iff, abs_of_pos hproper.extent_pos]
      exact hshort
    exact hheld.mpr ⟨hspan, width_le_of_extent hproper hn hspan hlong⟩

/-- A range just short enough for its length to have a float. -/
theorem ordered_and_held_wide :
    ∃ b, of? (-8.9e307) 8.9e307 65536 = some b ∧ 65536 ≤ Regime.maxBins ∧
      (∀ x y : Float, x.isFinite = true → y.isFinite = true → x ≤ y →
        b.indexOf x ≤ b.indexOf y ∧ b.indexOf y < 65536) ∧
      ∀ x : Float, x.isFinite = true → 8.9e307 ≤ x → b.indexOf x = 65536 - 1 := by
  have hproper : Binning.Proper ⟨-8.9e307, 8.9e307, 65536⟩ :=
    ⟨by decide +kernel, by decide +kernel, by decide +kernel, by decide⟩
  have hsome : of? (-8.9e307) 8.9e307 65536 = some ⟨-8.9e307, 8.9e307, 65536⟩ :=
    of?_eq_some_iff.mpr ⟨rfl, hproper⟩
  have hn : 65536 ≤ Regime.maxBins := Nat.le_refl _
  have hlong : 2 ^ (-1043 : ℤ) ≤ value 8.9e307 - value (-8.9e307) := by
    have hmax : value 1 ≤ value 8.9e307 :=
      (le_iff_value rfl hproper.max).mp (by decide +kernel)
    have hmin : value (-8.9e307) ≤ value 0 :=
      (le_iff_value hproper.min rfl).mp (by decide +kernel)
    have hunit : (2 : ℚ) ^ (-1043 : ℤ) ≤ 1 := zpow_le_one_of_nonpos₀ (by norm_num) (by norm_num)
    rw [value_one] at hmax
    rw [value_zero] at hmin
    linarith
  have hshort : value 8.9e307 - value (-8.9e307) < overflowPoint :=
    (le_abs_self _).trans_lt (hproper.roundsTo_span.finite_iff.mp (by decide +kernel))
  obtain ⟨-, hordered, -, -, -, hheld⟩ := ordered_and_held hsome hn
  exact ⟨_, hsome, hn, hordered, hheld hlong hshort⟩

/-- A range whose length has no float: the upper end has the first bin. -/
theorem max_in_first_bin :
    ∃ b, of? (-1.7e308) 1.7e308 4 = some b ∧ 4 ≤ Regime.maxBins ∧
      (1.7e308 : Float).isFinite = true ∧ b.max ≤ 1.7e308 ∧ b.indexOf 1.7e308 = 0 := by
  have hproper : Binning.Proper ⟨-1.7e308, 1.7e308, 4⟩ :=
    ⟨by decide +kernel, by decide +kernel, by decide +kernel, by decide⟩
  refine ⟨_, of?_eq_some_iff.mpr ⟨rfl, hproper⟩, by decide, hproper.max, ?_, ?_⟩
  · decide +kernel
  · decide +kernel

end MarketSignals.Binning
