import Mathlib.Analysis.SpecialFunctions.Log.Basic
import Mathlib.Analysis.Complex.ExponentialBounds
import MarketSignals.Divergence
import MarketSignals.Proofs.Float.Bounds
import MarketSignals.Regime.Config

/-!
# When a divergence is finite

Shares are floats from zero to one.  The smoothed share of a bin is one as well, and it is
not zero as long as the norm has a float; its logarithm is then bounded, and so is a sum over
as many bins as there may be.  There are two ways to infinity: the smoothing is so large that
the norm has no float, or it is so small that the quotient with the share of a bin has none
which the reference never saw.

## Main definitions

* `MathLibrary.Accurate` — what is expected of the logarithm.
* `Measured` — what it takes for a bin to add a finite amount.
* `Comparable` — histograms over the same bins, neither of them empty.

## Main results

* `le_smoothedShare_or` — a smoothed share is not small, or it is the smoothing.
* `divergenceTerm_between`, `divergenceTerm_infinite` — what a bin adds.
* `smoothedDivergence_cases`, `twoSampleStatistic_cases` — the divergence and the statistic.
-/

namespace MarketSignals

open Rounding

variable {x : Float}

/-! ## The logarithm -/

/-- The logarithm is off by an error at most. -/
def MathLibrary.Accurate [MathLibrary] (error : ℝ) : Prop :=
  ∀ x : Float, x.isFinite = true → 0 < value x →
    (MathLibrary.log x).isFinite = true ∧
      |(value (MathLibrary.log x) : ℝ) - Real.log (value x)| ≤ error

/-- No float has a logarithm of more than three digits. -/
theorem abs_log_value_le (hx : x.isFinite = true) (hpos : 0 < value x) :
    |Real.log (value x)| ≤ 1023 := by
  have hpos' : (0 : ℝ) < value x := by exact_mod_cast hpos
  have htwo := Real.log_two_lt_d9
  have htwoPos : 0 < Real.log 2 := Real.log_pos (by norm_num)
  have hleast : (2 : ℝ) ^ (-1074 : ℤ) ≤ value x := by
    have hcast := (Rat.cast_le (K := ℝ)).mpr (least_le_value hx hpos)
    rwa [Rat.cast_zpow, Rat.cast_ofNat] at hcast
  have hgreatest : (value x : ℝ) ≤ 2 ^ (1024 : ℤ) := by
    have hlt : value x ≤ 2 ^ 1024 := by
      rw [← rounded_value_eq hx]
      exact ((le_abs_self _).trans_lt ((abs_rounded_lt_iff _).mpr (abs_value_lt hx))).le
    have hcast := (Rat.cast_le (K := ℝ)).mpr hlt
    rwa [Rat.cast_pow, Rat.cast_ofNat, ← zpow_natCast] at hcast
  have hlow := Real.log_le_log (by positivity) hleast
  have hhigh := Real.log_le_log hpos' hgreatest
  rw [Real.log_zpow] at hlow hhigh
  push_cast at hlow hhigh
  rw [abs_le]
  constructor
  · nlinarith
  · nlinarith

theorem ln_infinity [MathLibrary] : ln infinity = infinity := by
  unfold ln
  rw [if_neg (by decide), if_neg (by decide), if_neg (by decide), if_pos (by decide)]

/-- The logarithm of a finite positive float. -/
theorem ln_between [MathLibrary] (hlog : MathLibrary.Accurate 1) (hx : x.isFinite = true)
    (hpos : 0 < value x) : Between (ln x) (-(1024 : ℕ)) (1024 : ℕ) := by
  have hzero : ¬(x == 0) = true := by
    rw [beq_iff_value hx rfl, value_zero]
    exact hpos.ne'
  have hinfinity : ¬(x == 1 / 0) = true := ne_infinity hx
  unfold ln
  rw [if_neg ((not_lt_zero_iff hx).mpr hpos.le), if_neg hzero]
  by_cases hone : (x == 1) = true
  · rw [if_pos hone]
    refine ⟨rfl, ?_, ?_⟩
    · rw [value_zero]
      norm_num
    · rw [value_zero]
      norm_num
  · rw [if_neg hone, if_neg hinfinity]
    obtain ⟨hfinite, hnear⟩ := hlog x hx hpos
    have hbound := abs_le.mp (abs_log_value_le hx hpos)
    have hnear := abs_le.mp hnear
    refine ⟨hfinite, ?_, ?_⟩
    · rw [← Rat.cast_le (K := ℝ)]
      push_cast
      linarith
    · rw [← Rat.cast_le (K := ℝ)]
      push_cast
      linarith

/-! ## A logarithm with an error -/

/-- The logarithm, cut to a whole number. -/
noncomputable def wholeLog (x : Float) : Float :=
  Float.ofNat ⌊Real.log (value x)⌋₊ - Float.ofNat ⌊-Real.log (value x)⌋₊

theorem wholeLog_accurate : @MathLibrary.Accurate ⟨wholeLog⟩ 1 := by
  intro x hx hpos
  have hbound := abs_le.mp (abs_log_value_le hx hpos)
  show (wholeLog x).isFinite = true ∧ |(value (wholeLog x) : ℝ) - Real.log (value x)| ≤ 1
  unfold wholeLog
  generalize Real.log (value x) = l at hbound ⊢
  have hup : ⌊l⌋₊ ≤ 1023 := Nat.floor_le_of_le (by exact_mod_cast hbound.2)
  have hdown : ⌊-l⌋₊ ≤ 1023 := Nat.floor_le_of_le (by push_cast; linarith)
  have hdifference := between_ofNat_sub (m := ⌊l⌋₊) (n := ⌊-l⌋₊) (by omega) (by omega)
  refine ⟨hdifference.finite, ?_⟩
  rw [le_antisymm hdifference.high hdifference.low]
  push_cast
  rcases le_total 0 l with h | h
  · have hlow := Nat.floor_le h
    have hhigh := Nat.lt_floor_add_one l
    rw [Nat.floor_of_nonpos (neg_nonpos.mpr h), Nat.cast_zero, sub_zero, abs_le]
    constructor
    · linarith
    · linarith
  · have hlow := Nat.floor_le (neg_nonneg.mpr h)
    have hhigh := Nat.lt_floor_add_one (-l)
    rw [Nat.floor_of_nonpos h, Nat.cast_zero, zero_sub, abs_le]
    constructor
    · linarith
    · linarith

namespace Divergence

/-! ## Shares -/

/-- The share of a count. -/
def share (total count : ℕ) : Float := Float.ofNat count / Float.ofNat total

/-- A count out of a total that fits in 64 bits. -/
structure Counted (total count : ℕ) : Prop where
  lt : total < UInt64.size
  pos : 0 < total
  le : count ≤ total

namespace Counted

variable {total count : ℕ} (h : Counted total count)
include h

theorem ofNat_total : Between (Float.ofNat total) 1 (2 ^ 64) := between_ofNat h.pos h.lt

theorem ofNat_count :
    (Float.ofNat count).isFinite = true ∧ 0 ≤ value (Float.ofNat count) ∧
      value (Float.ofNat count) ≤ value (Float.ofNat total) := by
  have hfinite := ofNat_finite (h.le.trans_lt h.lt)
  rw [(roundsTo_ofNat total).value_eq h.ofNat_total.finite, (roundsTo_ofNat count).value_eq hfinite]
  exact ⟨hfinite, rounded_nonneg (Nat.cast_nonneg _), rounded_mono (Nat.cast_le.mpr h.le)⟩

theorem roundsTo_share :
    RoundsTo (share total count) (value (Float.ofNat count) / value (Float.ofNat total)) := by
  have hpos : 0 < value (Float.ofNat total) := one_pos.trans_le h.ofNat_total.low
  exact roundsTo_div h.ofNat_count.1 h.ofNat_total.finite hpos.ne'

theorem share_between : Between (share total count) 0 1 := by
  have hpos : 0 < value (Float.ofNat total) := one_pos.trans_le h.ofNat_total.low
  obtain ⟨-, hnonneg, hle⟩ := h.ofNat_count
  exact h.roundsTo_share.between exactly_zero exactly_one (div_nonneg hnonneg hpos.le)
    ((div_le_one hpos).mpr hle)

theorem value_share_zero (hcount : count = 0) : value (share total count) = 0 := by
  have hround := h.roundsTo_share
  have hzero : value (Float.ofNat 0) = 0 := value_zero
  rw [hcount, hzero, zero_div] at hround
  rw [hcount]
  exact (hround.of_zero rfl).2

/-- A count that is not zero has a share that is not. -/
theorem least_le_share (hcount : 0 < count) : 2 ^ (-64 : ℤ) ≤ value (share total count) := by
  have hcount := between_ofNat hcount (h.le.trans_lt h.lt)
  have hshare : Between (share total count) (2 ^ (-64 : ℤ)) (2 ^ 64) :=
    hcount.div h.ofNat_total (exactly_two_zpow (by decide) (by decide))
      (exactly_two_pow (by decide)) zero_le_one one_pos (by norm_num) (by norm_num)
  exact hshare.low

theorem share_pos (hcount : 0 < count) : 0 < value (share total count) :=
  (Decimal.two_zpow_pos _).trans_le (h.least_le_share hcount)

end Counted

/-! ## The norm -/

/-- What smoothed shares are divided by. -/
def norm (bins : ℕ) (epsilon : Float) : Float := 1 + Float.ofNat bins * epsilon

/-- A smoothing that is a positive number, for as many bins as there may be. -/
structure Smooths (bins : ℕ) (epsilon : Float) : Prop where
  two_le : 2 ≤ bins
  le_max : bins ≤ Regime.maxBins
  finite : epsilon.isFinite = true
  pos : 0 < value epsilon

theorem one_add_value_lt (hx : x.isFinite = true) : 1 + value x < overflowPoint := by
  have hgreatest := (le_abs_self _).trans (abs_value_le hx)
  have hone : (1 : ℚ) < 1 / 2 * 2 ^ (971 : ℤ) := by
    calc (1 : ℚ) < 1 / 2 * 2 ^ (2 : ℤ) := by norm_num
      _ ≤ 1 / 2 * 2 ^ (971 : ℤ) :=
          mul_le_mul_of_nonneg_left (zpow_le_zpow_right₀ (by norm_num) (by norm_num)) (by norm_num)
  rw [overflowPoint_eq]
  rw [greatestValue] at hgreatest
  generalize (2 : ℚ) ^ (971 : ℤ) = u at hone hgreatest ⊢
  linarith

namespace Smooths

variable {bins : ℕ} {epsilon : Float} (h : Smooths bins epsilon)
include h

theorem scaled_nonneg : 0 ≤ bins * value epsilon := mul_nonneg (Nat.cast_nonneg _) h.pos.le

theorem epsilon_le : value epsilon ≤ bins * value epsilon :=
  le_mul_of_one_le_left h.pos.le (by exact_mod_cast Nat.le_of_lt h.two_le)

/-- The smoothing is scaled up, and rounding does not undo that. -/
theorem epsilon_le_scaled : value epsilon ≤ rounded (bins * value epsilon) := by
  have hmono := rounded_mono h.epsilon_le
  rwa [rounded_value_eq h.finite] at hmono

theorem roundsTo_scaled : RoundsTo (Float.ofNat bins * epsilon) (bins * value epsilon) := by
  obtain ⟨hcount, hvalue⟩ := value_ofNat (n := bins) (h.le_max.trans_lt (by decide))
  rw [← hvalue]
  exact roundsTo_mul hcount h.finite

/-- Smoothing that is too large leaves no norm. -/
theorem norm_of_le (hrange : overflowPoint ≤ bins * value epsilon) :
    norm bins epsilon = infinity := by
  rw [norm, h.roundsTo_scaled.eq_infinity hrange]
  rfl

variable (hrange : bins * value epsilon < overflowPoint)
include hrange

/-- Other smoothing leaves a float, which is one at least. -/
theorem norm_finite : (norm bins epsilon).isFinite = true ∧
    value (norm bins epsilon) = rounded (1 + rounded (bins * value epsilon)) := by
  have hscaled : (Float.ofNat bins * epsilon).isFinite = true := by
    rwa [h.roundsTo_scaled.finite_iff, abs_of_nonneg h.scaled_nonneg]
  have hvalue := h.roundsTo_scaled.value_eq hscaled
  have hsum : RoundsTo (norm bins epsilon) (1 + value (Float.ofNat bins * epsilon)) := by
    have hadd := roundsTo_add (x := 1) rfl hscaled
    rwa [value_one] at hadd
  have hnorm : (norm bins epsilon).isFinite = true := by
    rw [hsum.finite_iff, abs_of_nonneg]
    · exact one_add_value_lt hscaled
    · rw [hvalue]
      exact add_nonneg zero_le_one (rounded_nonneg h.scaled_nonneg)
  exact ⟨hnorm, by rw [hsum.value_eq hnorm, hvalue]⟩

theorem one_le_norm : 1 ≤ value (norm bins epsilon) := by
  have hnonneg := rounded_nonneg h.scaled_nonneg
  have hmono := rounded_mono (show 1 ≤ 1 + rounded (bins * value epsilon) by linarith)
  rwa [exactly_one.fixed, ← (h.norm_finite hrange).2] at hmono

/-- Smoothing that shows in the norm is not small. -/
theorem lt_epsilon_of_lt_norm (hnorm : 1 < value (norm bins epsilon)) :
    2 ^ (-69 : ℤ) < value epsilon := by
  by_contra hsmall
  have hscaled : bins * value epsilon ≤ 2 ^ (-53 : ℤ) := by
    have hcount : (bins : ℚ) ≤ 2 ^ 16 := by exact_mod_cast h.le_max
    calc bins * value epsilon ≤ 2 ^ 16 * 2 ^ (-69 : ℤ) :=
          mul_le_mul hcount (not_lt.mp hsmall) h.pos.le (by norm_num)
      _ = 2 ^ (-53 : ℤ) := by norm_num
  have hrounded := rounded_mono hscaled
  rw [rounded_two_zpow (t := -53) (by decide)] at hrounded
  -- one and this much is in the middle between two floats, and one is the even one
  have hmiddle : rounded (1 + 2 ^ (-53 : ℤ)) = 1 := by
    have hround := rounded_eq (n := 2 ^ 52) (y := 2 ^ 52 + 1 / 2) (t := -52) (by norm_num)
      (by norm_num) (by norm_num) (.inr (by norm_num))
      ⟨by norm_num, by norm_num, fun hodd => absurd hodd (by decide)⟩
    norm_num at hround ⊢
    exact hround
  have hone : rounded (1 + rounded (bins * value epsilon)) ≤ rounded (1 + 2 ^ (-53 : ℤ)) :=
    rounded_mono (by linarith)
  rw [← (h.norm_finite hrange).2, hmiddle] at hone
  exact absurd hnorm (not_lt.mpr hone)

/-- Neither of the two roundings more than doubles. -/
theorem norm_le : value (norm bins epsilon) ≤ 2 + 4 * (bins * value epsilon) := by
  have hscaled := rounded_le_two_mul ((least_le_value h.finite h.pos).trans h.epsilon_le)
  have hnonneg := rounded_nonneg h.scaled_nonneg
  have hone : (2 : ℚ) ^ (-1074 : ℤ) ≤ 1 := zpow_le_one_of_nonpos₀ (by norm_num) (by norm_num)
  have hnorm := rounded_le_two_mul
    (show 2 ^ (-1074 : ℤ) ≤ 1 + rounded (bins * value epsilon) by linarith)
  rw [(h.norm_finite hrange).2]
  linarith

end Smooths

/-! ## The smoothed share -/

section Smoothed

variable {bins total count : ℕ} {epsilon : Float}

theorem smoothedShare_eq [MathLibrary] : smoothedShare bins total epsilon count =
    (share total count + epsilon) / norm bins epsilon := rfl

section Sum

variable (hc : Counted total count) (he : Smooths bins epsilon)
include hc he

/-- The share with the smoothing added. -/
theorem smoothed_finite : (share total count + epsilon).isFinite = true ∧
    value (share total count + epsilon) = rounded (value (share total count) + value epsilon) := by
  have hround := roundsTo_add hc.share_between.finite he.finite
  have hsum : (share total count + epsilon).isFinite = true := by
    rw [hround.finite_iff, abs_of_nonneg (add_nonneg hc.share_between.low he.pos.le)]
    exact (add_le_add_left hc.share_between.high _).trans_lt (one_add_value_lt he.finite)
  exact ⟨hsum, hround.value_eq hsum⟩

theorem epsilon_le_smoothed : value epsilon ≤ value (share total count + epsilon) := by
  have hmono := rounded_mono (le_add_of_nonneg_left (a := value epsilon) hc.share_between.low)
  rwa [rounded_value_eq he.finite, ← (smoothed_finite hc he).2] at hmono

theorem share_le_smoothed : value (share total count) ≤ value (share total count + epsilon) := by
  have hmono := rounded_mono (le_add_of_nonneg_right (a := value (share total count)) he.pos.le)
  rwa [rounded_value_eq hc.share_between.finite, ← (smoothed_finite hc he).2] at hmono

theorem value_smoothed_zero (hcount : count = 0) :
    value (share total count + epsilon) = value epsilon := by
  rw [(smoothed_finite hc he).2, hc.value_share_zero hcount, zero_add, rounded_value_eq he.finite]

/-- Without a norm nothing is left of a share. -/
theorem smoothedShare_of_le [MathLibrary] (hrange : overflowPoint ≤ bins * value epsilon) :
    smoothedShare bins total epsilon count = 0 := by
  rw [smoothedShare_eq, he.norm_of_le hrange]
  exact div_infinity_of_pos (smoothed_finite hc he).1 (he.pos.trans_le (epsilon_le_smoothed hc he))

variable (hrange : bins * value epsilon < overflowPoint)
include hrange

/-- What is added to one by the smoothing of all bins is not less than what is added to a
share by that of one. -/
theorem smoothed_le_norm : value (share total count + epsilon) ≤ value (norm bins epsilon) := by
  rw [(smoothed_finite hc he).2, (he.norm_finite hrange).2]
  exact rounded_mono (add_le_add hc.share_between.high he.epsilon_le_scaled)

variable [MathLibrary]

theorem roundsTo_smoothedShare : RoundsTo (smoothedShare bins total epsilon count)
    (value (share total count + epsilon) / value (norm bins epsilon)) := by
  have hone := he.one_le_norm hrange
  have hne : value (norm bins epsilon) ≠ 0 := by linarith
  exact roundsTo_div (smoothed_finite hc he).1 (he.norm_finite hrange).1 hne

theorem smoothedShare_between : Between (smoothedShare bins total epsilon count) 0 1 := by
  have hone := he.one_le_norm hrange
  have hsum := epsilon_le_smoothed hc he
  exact (roundsTo_smoothedShare hc he hrange).between exactly_zero exactly_one
    (div_nonneg (he.pos.le.trans hsum) (by linarith))
    ((div_le_one (by linarith)).mpr (smoothed_le_norm hc he hrange))

/-- A bin that the reference never saw has the smoothing for its share, or less. -/
theorem smoothedShare_zero_le (hcount : count = 0) :
    value (smoothedShare bins total epsilon count) ≤ value epsilon := by
  have hone := he.one_le_norm hrange
  have hround := roundsTo_smoothedShare hc he hrange
  rw [value_smoothed_zero hc he hcount] at hround
  exact (hround.between exactly_zero (exactly_value he.finite) (div_nonneg he.pos.le (by linarith))
    (div_le_self he.pos.le hone)).high

/-- A smoothed share is not small unless it is the smoothing of such a bin. -/
theorem le_smoothedShare_or :
    2 ^ (-72 : ℤ) ≤ value (smoothedShare bins total epsilon count) ∨
      count = 0 ∧ value (smoothedShare bins total epsilon count) = value epsilon := by
  have hround := roundsTo_smoothedShare hc he hrange
  rcases (he.one_le_norm hrange).eq_or_lt with hone | hlarge
  · -- nothing is divided by
    rw [← hone, div_one] at hround
    have hvalue := hround.value_eq (smoothedShare_between hc he hrange).finite
    rw [rounded_value_eq (smoothed_finite hc he).1] at hvalue
    rw [hvalue]
    rcases Nat.eq_zero_or_pos count with hzero | hcount
    · exact .inr ⟨hzero, value_smoothed_zero hc he hzero⟩
    · left
      calc (2 : ℚ) ^ (-72 : ℤ) ≤ 2 ^ (-64 : ℤ) := by norm_num
        _ ≤ value (share total count) := hc.least_le_share hcount
        _ ≤ _ := share_le_smoothed hc he
  · left
    have hepsilon := he.lt_epsilon_of_lt_norm hrange hlarge
    have hnorm := he.norm_le hrange
    have hsum := epsilon_le_smoothed hc he
    have hscaled : bins * value epsilon ≤ 2 ^ 16 * value epsilon :=
      mul_le_mul_of_nonneg_right (by exact_mod_cast he.le_max) he.pos.le
    refine (hround.between (exactly_two_zpow (by decide) (by decide)) exactly_one ?_
      ((div_le_one (by linarith)).mpr (smoothed_le_norm hc he hrange))).low
    rw [le_div_iff₀ (by linarith)]
    norm_num at hepsilon hscaled ⊢
    linarith

theorem smoothedShare_pos : 0 < value (smoothedShare bins total epsilon count) := by
  rcases le_smoothedShare_or hc he hrange with h | ⟨-, h⟩
  · exact (Decimal.two_zpow_pos _).trans_le h
  · rw [h]
    exact he.pos

end Sum

end Smoothed

/-! ## What a bin adds -/

/-- What it takes for a bin to add a finite amount, given its counts in the window and in
the reference: the norm has a float, and so has the quotient of the shares if the reference
never saw the bin. -/
def Measured (bins : ℕ) (epsilon : Float) (total : ℕ) (counts : ℕ × ℕ) : Prop :=
  bins * value epsilon < overflowPoint ∧
    (counts.2 = 0 → value (share total counts.1) < overflowPoint * value epsilon)

section Term

variable [MathLibrary] {bins m n a c : ℕ} {epsilon : Float}

theorem divergenceTerm_eq (p q : Float) : divergenceTerm p q = p * ln (p / q) := rfl

variable (hm : Counted m a) (ha : 0 < a) (hn : Counted n c) (he : Smooths bins epsilon)
include hm ha hn he

/-- The quotient of the shares has a float, and that is not zero. -/
theorem quotient_finite (h : Measured bins epsilon m (a, c)) :
    (share m a / smoothedShare bins n epsilon c).isFinite = true ∧
      0 < value (share m a / smoothedShare bins n epsilon c) := by
  obtain ⟨hrange, hunseen⟩ := h
  have hshare := hm.share_between
  have hsharePos := hm.share_pos ha
  have hq := smoothedShare_between hn he hrange
  have hqPos := smoothedShare_pos hn he hrange
  have hround := roundsTo_div hshare.finite hq.finite hqPos.ne'
  have hlt : value (share m a) < overflowPoint * value (smoothedShare bins n epsilon c) := by
    rcases le_smoothedShare_or hn he hrange with hlarge | ⟨hzero, hvalue⟩
    · have hone : (1 : ℚ) < overflowPoint * 2 ^ (-72 : ℤ) := by
        have hpower := two_pow_lt_overflowPoint (k := 72) (by decide)
        calc (1 : ℚ) = 2 ^ 72 * 2 ^ (-72 : ℤ) := by norm_num
          _ < overflowPoint * 2 ^ (-72 : ℤ) :=
              mul_lt_mul_of_pos_right hpower (Decimal.two_zpow_pos _)
      exact (hshare.high.trans_lt hone).trans_le
        (mul_le_mul_of_nonneg_left hlarge overflowPoint_pos.le)
    · rw [hvalue]
      exact hunseen hzero
  have hquotient : 0 ≤ value (share m a) / value (smoothedShare bins n epsilon c) :=
    div_nonneg hshare.low hqPos.le
  have hfinite : (share m a / smoothedShare bins n epsilon c).isFinite = true := by
    rwa [hround.finite_iff, abs_of_nonneg hquotient, div_lt_iff₀ hqPos]
  refine ⟨hfinite, hsharePos.trans_le ?_⟩
  rw [hround.value_eq hfinite, ← rounded_value_eq hshare.finite]
  refine rounded_mono ?_
  rw [rounded_value_eq hshare.finite, le_div_iff₀ hqPos]
  exact mul_le_of_le_one_right hshare.low hq.high

theorem quotient_infinite (h : ¬ Measured bins epsilon m (a, c)) :
    share m a / smoothedShare bins n epsilon c = infinity := by
  have hshare := hm.share_between
  have hsharePos := hm.share_pos ha
  by_cases hrange : bins * value epsilon < overflowPoint
  · obtain ⟨hzero, hlarge⟩ : c = 0 ∧ overflowPoint * value epsilon ≤ value (share m a) := by
      by_contra hnot
      exact h ⟨hrange, fun hzero => not_le.mp fun hle => hnot ⟨hzero, hle⟩⟩
    have hqPos := smoothedShare_pos hn he hrange
    refine (roundsTo_div hshare.finite (smoothedShare_between hn he hrange).finite
      hqPos.ne').eq_infinity ?_
    rw [le_div_iff₀ hqPos]
    exact (mul_le_mul_of_nonneg_left (smoothedShare_zero_le hn he hrange hzero)
      overflowPoint_pos.le).trans hlarge
  · rw [smoothedShare_of_le hn he (not_lt.mp hrange)]
    exact div_zero_of_pos hshare.finite hsharePos

theorem divergenceTerm_between (hlog : MathLibrary.Accurate 1)
    (h : Measured bins epsilon m (a, c)) :
    Between (divergenceTerm (share m a) (smoothedShare bins n epsilon c)) (-(1024 : ℕ))
      (1024 : ℕ) := by
  have hshare := hm.share_between
  obtain ⟨hfinite, hpos⟩ := quotient_finite hm ha hn he h
  have hln := ln_between hlog hfinite hpos
  have hexact : Exactly (1024 : ℕ) := exactly_natCast (by decide)
  rw [divergenceTerm_eq]
  have hproduct : |value (share m a) * value (ln (share m a / smoothedShare bins n epsilon c))| ≤
      1024 := by
    rw [abs_mul, abs_of_nonneg hshare.low]
    calc value (share m a) * |value (ln (share m a / smoothedShare bins n epsilon c))|
        ≤ 1 * 1024 := by
          refine mul_le_mul hshare.high ?_ (abs_nonneg _) zero_le_one
          exact abs_le.mpr ⟨hln.low, hln.high⟩
      _ = 1024 := one_mul _
  exact (roundsTo_mul hshare.finite hln.finite).between hexact.neg hexact
    (abs_le.mp hproduct).1 (abs_le.mp hproduct).2

theorem divergenceTerm_infinite (h : ¬ Measured bins epsilon m (a, c)) :
    divergenceTerm (share m a) (smoothedShare bins n epsilon c) = infinity := by
  rw [divergenceTerm_eq, quotient_infinite hm ha hn he h, ln_infinity]
  exact mul_infinity hm.share_between.finite (hm.share_pos ha)

end Term

/-! ## Histograms -/

/-- A window and a reference over the same bins, neither of them empty. -/
structure Comparable (recent reference : Histogram) : Prop where
  nBins : recent.nBins = reference.nBins
  recent_pos : 0 < recent.total
  recent_lt : recent.total < UInt64.size
  sum_recent : recent.counts.sum = recent.total
  reference_pos : 0 < reference.total
  reference_lt : reference.total < UInt64.size
  sum_reference : reference.counts.sum = reference.total

/-- The counts of the bins that the window has samples in. -/
def populated (recent reference : Histogram) : List (ℕ × ℕ) :=
  (recent.counts.toList.zip reference.counts.toList).filter fun c => 0 < c.1

theorem length_populated_le (recent reference : Histogram) :
    (populated recent reference).length ≤ reference.nBins :=
  (List.length_filter_le _ _).trans (by rw [List.length_zip]; exact Nat.min_le_right _ _)

/-- All that the divergence is summed over is measured. -/
def AllMeasured (recent reference : Histogram) (epsilon : Float) : Prop :=
  ∀ c ∈ populated recent reference, Measured reference.nBins epsilon recent.total c

namespace Comparable

variable {recent reference : Histogram} (h : Comparable recent reference)
include h

theorem counted {c : ℕ × ℕ} (hc : c ∈ populated recent reference) :
    Counted recent.total c.1 ∧ 0 < c.1 ∧ Counted reference.total c.2 := by
  obtain ⟨hzip, hpos⟩ := List.mem_filter.mp hc
  obtain ⟨hwindow, hreference⟩ := List.of_mem_zip hzip
  have hle := List.le_sum_of_mem hwindow
  have hle' := List.le_sum_of_mem hreference
  rw [Array.sum_toList, h.sum_recent] at hle
  rw [Array.sum_toList, h.sum_reference] at hle'
  exact ⟨⟨h.recent_lt, h.recent_pos, hle⟩, of_decide_eq_true hpos,
    ⟨h.reference_lt, h.reference_pos, hle'⟩⟩

/-- A window that is not empty has samples in some bin. -/
theorem exists_populated : ∃ c, c ∈ populated recent reference := by
  have hsum : 0 < recent.counts.toList.sum := by
    rw [Array.sum_toList, h.sum_recent]
    exact h.recent_pos
  obtain ⟨a, ha, hpos⟩ := List.sum_pos_iff_exists_pos_nat.mp hsum
  obtain ⟨i, hi, rfl⟩ := List.mem_iff_getElem.mp ha
  have hi' : i < (recent.counts.toList.zip reference.counts.toList).length := by
    have hbins : recent.counts.size = reference.counts.size := h.nBins
    rw [Array.length_toList] at hi
    rw [List.length_zip, Array.length_toList, Array.length_toList, ← hbins, Nat.min_self]
    exact hi
  refine ⟨_, List.mem_filter.mpr ⟨List.getElem_mem hi', ?_⟩⟩
  rw [List.getElem_zip]
  exact decide_eq_true hpos

variable {epsilon : Float}

/-- Smoothing in range whose quotients are measures every bin. -/
theorem allMeasured_of_range (hrange : reference.nBins * value epsilon < overflowPoint)
    (hsmall : 2 ^ (-1023 : ℤ) ≤ value epsilon) : AllMeasured recent reference epsilon := by
  intro c hc
  refine ⟨hrange, fun _ => (h.counted hc).1.share_between.high.trans_lt ?_⟩
  have hhalf : (1 : ℚ) < overflowPoint * 2 ^ (-1023 : ℤ) := by
    rw [overflowPoint_eq, mul_assoc, ← zpow_add₀ (by norm_num)]
    norm_num
  exact hhalf.trans_le (mul_le_mul_of_nonneg_left hsmall overflowPoint_pos.le)

/-- Smoothing out of range measures none. -/
theorem not_allMeasured_of_le (hrange : overflowPoint ≤ reference.nBins * value epsilon) :
    ¬ AllMeasured recent reference epsilon := by
  intro hall
  obtain ⟨c, hc⟩ := h.exists_populated
  exact absurd (hall c hc).1 (not_lt.mpr hrange)

end Comparable

/-! ## The divergence -/

section Sums

variable [MathLibrary] {recent reference : Histogram} {epsilon : Float}

theorem divergenceSum_eq : divergenceSum recent reference epsilon =
    (populated recent reference).foldl (fun acc c =>
      acc + divergenceTerm (share recent.total c.1)
        (smoothedShare reference.nBins reference.total epsilon c.2)) 0 := rfl

variable (hlog : MathLibrary.Accurate 1) (h : Comparable recent reference)
  (he : Smooths reference.nBins epsilon)
include hlog h he

/-- The sum is bounded if all bins are measured, and otherwise it is infinite. -/
theorem divergenceSum_cases :
    (AllMeasured recent reference epsilon →
      Between (divergenceSum recent reference epsilon) (-(2 ^ 26 : ℕ)) (2 ^ 26 : ℕ)) ∧
    (¬ AllMeasured recent reference epsilon →
      divergenceSum recent reference epsilon = infinity) := by
  have hlength : (populated recent reference).length ≤ 65536 :=
    (length_populated_le recent reference).trans he.le_max
  have hfew : (0 + (populated recent reference).length) * 1024 < 2 ^ 53 := by omega
  have hstart : Between 0 (-(0 * 1024 : ℕ)) (0 * 1024 : ℕ) := by
    rw [Nat.zero_mul, Nat.cast_zero, neg_zero]
    exact ⟨rfl, value_zero.ge, value_zero.le⟩
  rw [divergenceSum_eq]
  constructor
  · intro hall
    refine (foldl_add_between ?_ hstart hfew).mono ?_ ?_
    · intro c hc
      obtain ⟨hm, ha, hn⟩ := h.counted hc
      exact divergenceTerm_between hm ha hn he hlog (hall c hc)
    · rw [neg_le_neg_iff, Nat.cast_le]
      omega
    · rw [Nat.cast_le]
      omega
  · intro hnot
    refine foldl_add_infinite (c := 1024) ?_ ?_ hstart hfew
    · intro c hc
      obtain ⟨hm, ha, hn⟩ := h.counted hc
      by_cases hmeasured : Measured reference.nBins epsilon recent.total c
      · exact .inl (divergenceTerm_between hm ha hn he hlog hmeasured)
      · exact .inr (divergenceTerm_infinite hm ha hn he hmeasured)
    · obtain ⟨c, hc, hmeasured⟩ : ∃ c ∈ populated recent reference,
          ¬ Measured reference.nBins epsilon recent.total c := by
        unfold AllMeasured at hnot
        push Not at hnot
        exact hnot
      obtain ⟨hm, ha, hn⟩ := h.counted hc
      exact ⟨c, hc, divergenceTerm_infinite hm ha hn he hmeasured⟩

/-- The divergence is not negative, and it is finite exactly if all bins are measured. -/
theorem smoothedDivergence_cases :
    (AllMeasured recent reference epsilon →
      Between (smoothedDivergence recent reference epsilon) 0 (2 ^ 26)) ∧
    (¬ AllMeasured recent reference epsilon →
      smoothedDivergence recent reference epsilon = infinity) := by
  obtain ⟨hfinite, hinfinite⟩ := divergenceSum_cases hlog h he
  constructor
  · intro hall
    have hsum := hfinite hall
    show Between (if 0 < divergenceSum recent reference epsilon then
      divergenceSum recent reference epsilon else 0) 0 (2 ^ 26)
    split_ifs with hpos
    · rw [lt_iff_value rfl hsum.finite, value_zero] at hpos
      exact ⟨hsum.finite, hpos.le, hsum.high.trans_eq (by norm_num)⟩
    · exact ⟨rfl, value_zero.ge, value_zero.le.trans (by positivity)⟩
  · intro hnot
    show (if 0 < divergenceSum recent reference epsilon then
      divergenceSum recent reference epsilon else 0) = infinity
    rw [hinfinite hnot, if_pos (by decide)]

end Sums

/-! ## The statistic -/

section Statistic

variable {n m : ℕ} {divergence : Float}

/-- What the divergence is scaled by. -/
def scale (n m : ℕ) : Float :=
  2 * (Float.ofNat n * Float.ofNat m / (Float.ofNat n + Float.ofNat m))

theorem twoSampleStatistic_eq [MathLibrary] :
    twoSampleStatistic (Float.ofNat n) (Float.ofNat m) divergence = scale n m * divergence := rfl

theorem scale_between (hn : 0 < n) (hn' : n < UInt64.size) (hm : 0 < m) (hm' : m < UInt64.size) :
    Between (scale n m) (2 ^ (-65 : ℤ)) (2 ^ 192) := by
  have hreference := between_ofNat hn hn'
  have hwindow := between_ofNat hm hm'
  have hproduct : Between (Float.ofNat n * Float.ofNat m) 1 (2 ^ 128) :=
    hreference.mul hwindow exactly_one (exactly_two_pow (by decide)) zero_le_one zero_le_one
      (by norm_num) (by norm_num)
  have hsum : Between (Float.ofNat n + Float.ofNat m) 1 (2 ^ 65) :=
    hreference.add hwindow exactly_one (exactly_two_pow (by decide)) (by norm_num) (by norm_num)
  have hquotient : Between (Float.ofNat n * Float.ofNat m / (Float.ofNat n + Float.ofNat m))
      (2 ^ (-65 : ℤ)) (2 ^ 128) :=
    hproduct.div hsum (exactly_two_zpow (by decide) (by decide)) (exactly_two_pow (by decide))
      zero_le_one one_pos (by norm_num) (by norm_num)
  have htwo : Between 2 1 (2 ^ 64) := between_ofNat (n := 2) (by decide) (by decide)
  exact htwo.mul hquotient (exactly_two_zpow (by decide) (by decide)) (exactly_two_pow (by decide))
    zero_le_one (Decimal.two_zpow_pos _).le (by norm_num) (by norm_num)

variable [MathLibrary] {recent reference : Histogram} {epsilon : Float}

/-- The statistic is finite exactly if the divergence is. -/
theorem twoSampleStatistic_cases (hlog : MathLibrary.Accurate 1)
    (h : Comparable recent reference) (he : Smooths reference.nBins epsilon) :
    (AllMeasured recent reference epsilon →
      Between (twoSampleStatistic (Float.ofNat reference.total) (Float.ofNat recent.total)
        (smoothedDivergence recent reference epsilon)) 0 (2 ^ 218)) ∧
    (¬ AllMeasured recent reference epsilon →
      twoSampleStatistic (Float.ofNat reference.total) (Float.ofNat recent.total)
        (smoothedDivergence recent reference epsilon) = infinity) := by
  have hscale := scale_between h.reference_pos h.reference_lt h.recent_pos h.recent_lt
  obtain ⟨hfinite, hinfinite⟩ := smoothedDivergence_cases hlog h he
  rw [twoSampleStatistic_eq]
  constructor
  · intro hall
    exact hscale.mul (hfinite hall) exactly_zero (exactly_two_pow (by decide))
      (Decimal.two_zpow_pos _).le le_rfl (by norm_num) (by norm_num)
  · intro hnot
    rw [hinfinite hnot]
    exact mul_infinity hscale.finite ((Decimal.two_zpow_pos _).trans_le hscale.low)

end Statistic

end Divergence

end MarketSignals
