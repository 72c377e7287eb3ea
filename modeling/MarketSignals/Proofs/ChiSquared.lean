import Mathlib.Probability.Distributions.Gamma
import MarketSignals.ChiSquared
import MarketSignals.Proofs.Float.Whole

/-!
# What the chi-squared test answers

The tail of the chi-squared distribution is a tail of a gamma distribution, which a
statistics library computes up to an error.  It is not asked where the answer is known:
nothing lies below zero or beyond infinity.  It is asked for half the statistic, and that is
zero for one positive float, the least; the library does not take zero.

## Main definitions

* `massAbove` — the regularised upper incomplete gamma function.
* `GammaLibrary.Accurate` — what is expected of the library.
* `tail` — the tail that is meant.

## Main results

* `clampToUnit_spec` — what is held between zero and one stays as near to the tail.
* `half_eq_zero_iff` — the float whose half is zero.
* `survival_cases` — when there is an answer, and what it is.
-/

namespace MarketSignals.ChiSquared

open ProbabilityTheory (gammaMeasure isProbabilityMeasure_gammaMeasure)
open Rounding

variable {x : Float} {degrees : ℕ} {error : ℝ}

/-! ## The tail -/

/-- The mass above a number of the gamma distribution with a shape: the regularised upper
incomplete gamma function. -/
noncomputable def massAbove (a x : ℝ) : ℝ := (gammaMeasure a 1).real (Set.Ioi x)

theorem massAbove_nonneg (a x : ℝ) : 0 ≤ massAbove a x := MeasureTheory.measureReal_nonneg

theorem massAbove_le_one {a : ℝ} (ha : 0 < a) (x : ℝ) : massAbove a x ≤ 1 := by
  have hprobability := isProbabilityMeasure_gammaMeasure ha one_pos
  exact MeasureTheory.measureReal_le_one

/-- The library answers with a number that is off by an error at most. -/
def GammaLibrary.Accurate [GammaLibrary] (error : ℝ) : Prop :=
  ∀ a x : Float, a.isFinite = true → x.isFinite = true → 0 < value a → 0 < value x →
    (GammaLibrary.upperTail a x).isFinite = true ∧
      |(value (GammaLibrary.upperTail a x) : ℝ) - massAbove (value a) (value x)| ≤ error

theorem GammaLibrary.Accurate.nonneg [GammaLibrary] (h : GammaLibrary.Accurate error) :
    0 ≤ error := by
  have hone : 0 < value 1 := by rw [value_one]; exact one_pos
  exact (abs_nonneg _).trans (h 1 1 rfl rfl hone hone).2

/-- The tail beyond a statistic: all of it below zero, none beyond infinity. -/
noncomputable def tail (statistic : Float) (degrees : ℕ) : ℝ :=
  if statistic ≤ 0 then 1
  else if statistic.isInf then 0
  else massAbove (value (Float.ofNat degrees * 0.5)) (value (statistic * 0.5))

/-! ## Between zero and one -/

/-- Holding a number between zero and one takes it no further from any number there. -/
theorem clampToUnit_spec (hx : x.isFinite = true) {q : ℝ} (hq : 0 ≤ q) (hq' : q ≤ 1) :
    (clampToUnit x).isFinite = true ∧ 0 ≤ value (clampToUnit x) ∧ value (clampToUnit x) ≤ 1 ∧
      |(value (clampToUnit x) : ℝ) - q| ≤ |(value x : ℝ) - q| := by
  unfold clampToUnit
  split_ifs with hlow hhigh
  · rw [lt_iff_value hx rfl, value_zero] at hlow
    have hlow : (value x : ℝ) < 0 := by exact_mod_cast hlow
    rw [value_zero]
    refine ⟨rfl, le_rfl, zero_le_one, ?_⟩
    rw [Rat.cast_zero, abs_of_nonpos (by linarith), abs_of_nonpos (by linarith)]
    linarith
  · rw [lt_iff_value rfl hx, value_one] at hhigh
    have hhigh : 1 < (value x : ℝ) := by exact_mod_cast hhigh
    rw [value_one]
    refine ⟨rfl, zero_le_one, le_rfl, ?_⟩
    rw [Rat.cast_one, abs_of_nonneg (by linarith), abs_of_nonneg (by linarith)]
    linarith
  · rw [not_lt_zero_iff hx] at hlow
    rw [lt_iff_value rfl hx, value_one, not_lt] at hhigh
    exact ⟨hx, hlow, hhigh, le_rfl⟩

/-! ## Half a float -/

theorem value_half : value 0.5 = 1 / 2 := by
  have h : (0.5 : Float).toModel.unpack = .finite .positive (2 ^ 52) (-53) (by decide) := rfl
  rw [value, h]
  show ((2 ^ 52 : ℕ) : ℚ) * 2 ^ (-53 : ℤ) = 1 / 2
  norm_num

theorem roundsTo_half (hx : x.isFinite = true) : RoundsTo (x * 0.5) (value x / 2) := by
  have hround := roundsTo_mul hx (y := 0.5) rfl
  rw [value_half] at hround
  rwa [div_eq_mul_one_div]

theorem half_finite (hx : x.isFinite = true) : (x * 0.5).isFinite = true := by
  rw [(roundsTo_half hx).finite_iff, abs_div, abs_two]
  exact (half_le_self (abs_nonneg _)).trans_lt (abs_value_lt hx)

theorem value_half_mul (hx : x.isFinite = true) : value (x * 0.5) = rounded (value x / 2) :=
  (roundsTo_half hx).value_eq (half_finite hx)

/-- The least positive float. -/
def leastFloat : Float := Float.ofBits 1

theorem value_leastFloat : value leastFloat = 2 ^ (-1074 : ℤ) := by
  have h : leastFloat.toModel.unpack = .finite .positive 1 (-1074) (by decide) := rfl
  rw [value, h]
  exact one_mul _

/-- Half the least float lies in the middle between zero and the least float, and zero is
the even one of the two. -/
theorem rounded_half_least : rounded (2 ^ (-1074 : ℤ) / 2) = 0 := by
  have hround := rounded_eq (n := 0) (y := 1 / 2) (t := -1074) (by norm_num) (by norm_num)
    (by norm_num) (.inl rfl) ⟨by norm_num, by norm_num, fun h => by omega⟩
  rwa [Nat.cast_zero, zero_mul, one_div_mul_eq_div] at hround

/-- No other positive float has a half that is zero. -/
theorem half_eq_zero_iff (hx : x.isFinite = true) (hpos : 0 < value x) :
    (x * 0.5 == 0) = true ↔ x = leastFloat := by
  have hunit : (0 : ℚ) < 2 ^ (-1074 : ℤ) := Decimal.two_zpow_pos _
  rw [beq_iff_value (half_finite hx) rfl, value_half_mul hx, value_zero]
  constructor
  · intro hzero
    refine (eq_of_value_eq rfl hx (value_leastFloat ▸ hunit) ?_).symm
    by_contra hne
    have hleast : value leastFloat ≤ value x := by
      rw [value_leastFloat]
      exact least_le_value hx hpos
    -- the next float is twice the least one, and its half is a float
    have hnext := least_le_sub rfl hx (hleast.lt_of_ne hne)
    rw [value_leastFloat] at hnext
    have hmono := rounded_mono (show 2 ^ (-1074 : ℤ) ≤ value x / 2 by linarith)
    rw [rounded_two_zpow (by decide), hzero] at hmono
    exact absurd hunit (not_lt.mpr hmono)
  · rintro rfl
    rw [value_leastFloat, rounded_half_least]

theorem half_pos (hx : x.isFinite = true) (hpos : 0 < value x) (hne : x ≠ leastFloat) :
    0 < value (x * 0.5) := by
  have hzero : ¬(x * 0.5 == 0) = true := fun h => hne ((half_eq_zero_iff hx hpos).mp h)
  rw [beq_iff_value (half_finite hx) rfl, value_zero] at hzero
  refine lt_of_le_of_ne' ?_ hzero
  rw [value_half_mul hx]
  exact rounded_nonneg (by linarith)

/-! ## The answer -/

/-- Half a number of degrees is what the library takes as a shape. -/
theorem shape_pos (hzero : degrees ≠ 0) (hd : degrees < UInt64.size) :
    (Float.ofNat degrees * 0.5).isFinite = true ∧ 0 < value (Float.ofNat degrees * 0.5) := by
  have hfinite := ofNat_finite hd
  have hone := one_le_value_ofNat (Nat.pos_of_ne_zero hzero) hd
  refine ⟨half_finite hfinite, half_pos hfinite (by linarith) ?_⟩
  intro hleast
  rw [hleast, value_leastFloat] at hone
  exact absurd hone (not_le.mpr (zpow_lt_one_of_neg₀ (by norm_num) (by decide)))

/-- A statistic that is a number is not positive, or infinite, or positive and finite. -/
theorem statistic_cases (hx : x.isNaN = false) :
    x ≤ 0 ∨ x = infinity ∨ x.isFinite = true ∧ 0 < value x := by
  rcases finite_or_infinite hx with hfinite | hinfinity | hneg
  · by_cases hle : x ≤ 0
    · exact .inl hle
    · exact .inr (.inr ⟨hfinite, (not_le_zero_iff hfinite).mp hle⟩)
  · exact .inr (.inl hinfinity)
  · rw [hneg]
    exact .inl (by decide)

section Answers

variable [GammaLibrary]

theorem survival_zero (x : Float) : survival x 0 =
    .error (.refused (.invariant "chi-squared test with zero degrees of freedom")) := rfl

theorem survival_nan (hd : degrees ≠ 0) (hx : x.isNaN = true) : survival x degrees =
    .error (.refused (.invariant "chi-squared statistic is NaN")) := by
  unfold survival
  rw [if_neg hd, if_pos hx]

/-- Nothing lies below zero. -/
theorem survival_of_le (hd : degrees ≠ 0) (hx : x.isNaN = false) (hle : x ≤ 0) :
    survival x degrees = .ok 1 := by
  unfold survival
  rw [if_neg hd, if_neg (by rw [hx]; decide), if_pos hle]

/-- Nothing lies beyond infinity. -/
theorem survival_infinity (hd : degrees ≠ 0) : survival infinity degrees = .ok 0 := by
  unfold survival
  rw [if_neg hd, if_neg (by decide), if_neg (by decide), if_pos (by decide)]

/-- A statistic whose half is zero breaks off. -/
theorem survival_least (hd : degrees ≠ 0) : survival leastFloat degrees =
    .error (.panicked (.text "incomplete gamma function of zero")) := by
  unfold survival
  rw [if_neg hd, if_neg (by decide), if_neg (by decide), if_neg (by decide), if_pos (by decide)]

/-- For any other positive float the library is asked. -/
theorem survival_of_pos (hd : degrees ≠ 0) (hx : x.isFinite = true) (hpos : 0 < value x)
    (hne : x ≠ leastFloat) : survival x degrees =
      .ok (clampToUnit (GammaLibrary.upperTail (Float.ofNat degrees * 0.5) (x * 0.5))) := by
  have hnan : x.isNaN = false := isNaN_eq_false hx
  have hinf : x.isInf = false := isInf_eq_false hx
  have hhalf : ¬(x * 0.5 == 0) = true := fun h => hne ((half_eq_zero_iff hx hpos).mp h)
  unfold survival
  rw [if_neg hd, if_neg (by rw [hnan]; decide), if_neg ((not_le_zero_iff hx).mpr hpos),
    if_neg (by rw [hinf]; decide)]
  exact if_neg hhalf

/-- A number other than the least float has an answer between zero and one, which is as near
to the tail as the library comes. -/
theorem exists_survival (haccurate : GammaLibrary.Accurate error) (hzero : degrees ≠ 0)
    (hd : degrees < UInt64.size) (hx : x.isNaN = false) (hne : x ≠ leastFloat) :
    ∃ p, survival x degrees = .ok p ∧ p.isFinite = true ∧ 0 ≤ value p ∧ value p ≤ 1 ∧
      |(value p : ℝ) - tail x degrees| ≤ error := by
  rcases statistic_cases hx with hle | rfl | ⟨hfinite, hpos⟩
  · refine ⟨1, survival_of_le hzero hx hle, rfl, ?_, ?_, ?_⟩
    · rw [value_one]
      exact zero_le_one
    · rw [value_one]
    · rw [tail, if_pos hle, value_one, Rat.cast_one, sub_self, abs_zero]
      exact haccurate.nonneg
  · refine ⟨0, survival_infinity hzero, rfl, ?_, ?_, ?_⟩
    · rw [value_zero]
    · rw [value_zero]
      exact zero_le_one
    · rw [tail, if_neg (by decide), if_pos (by decide), value_zero, Rat.cast_zero, sub_self,
        abs_zero]
      exact haccurate.nonneg
  · obtain ⟨hshape, hshapePos⟩ := shape_pos hzero hd
    obtain ⟨hanswer, hnear⟩ := haccurate _ _ hshape (half_finite hfinite) hshapePos
      (half_pos hfinite hpos hne)
    have hshapePos : (0 : ℝ) < value (Float.ofNat degrees * 0.5) := by exact_mod_cast hshapePos
    obtain ⟨hfinite', hlow, hhigh, hclose⟩ := clampToUnit_spec hanswer (massAbove_nonneg _ _)
      (massAbove_le_one hshapePos (value (x * 0.5)))
    refine ⟨_, survival_of_pos hzero hfinite hpos hne, hfinite', hlow, hhigh, ?_⟩
    rw [tail, if_neg ((not_le_zero_iff hfinite).mpr hpos),
      if_neg (by rw [isInf_eq_false hfinite]; decide)]
    exact hclose.trans hnear

/-- There is no other kind of answer. -/
theorem survival_spec (haccurate : GammaLibrary.Accurate error) (hd : degrees < UInt64.size)
    {p : Float} (h : survival x degrees = .ok p) :
    p.isFinite = true ∧ 0 ≤ value p ∧ value p ≤ 1 ∧ |(value p : ℝ) - tail x degrees| ≤ error := by
  have hzero : degrees ≠ 0 := by
    rintro rfl
    rw [survival_zero] at h
    cases h
  have hx : x.isNaN = false := by
    rw [← Bool.not_eq_true]
    intro hnan
    rw [survival_nan hzero hnan] at h
    cases h
  have hne : x ≠ leastFloat := by
    rintro rfl
    rw [survival_least hzero] at h
    cases h
  obtain ⟨p', hp', hspec⟩ := exists_survival haccurate hzero hd hx hne
  rw [h] at hp'
  cases hp'
  exact hspec

theorem refused_iff (haccurate : GammaLibrary.Accurate error) (x : Float)
    (hd : degrees < UInt64.size) :
    (∃ text, survival x degrees = .error (.refused (.invariant text))) ↔
      degrees = 0 ∨ x.isNaN = true := by
  rcases eq_or_ne degrees 0 with rfl | hzero
  · exact iff_of_true ⟨_, survival_zero x⟩ (.inl rfl)
  cases hx : x.isNaN with
  | true => exact iff_of_true ⟨_, survival_nan hzero hx⟩ (.inr rfl)
  | false =>
      refine iff_of_false ?_ (not_or.mpr ⟨hzero, Bool.false_ne_true⟩)
      rintro ⟨text, h⟩
      by_cases hleast : x = leastFloat
      · rw [hleast, survival_least hzero] at h
        cases h
      · obtain ⟨p, hp, -⟩ := exists_survival haccurate hzero hd hx hleast
        rw [hp] at h
        cases h

theorem panicked_iff (haccurate : GammaLibrary.Accurate error) (x : Float)
    (hd : degrees < UInt64.size) :
    (∃ panic, survival x degrees = .error (.panicked panic)) ↔ degrees ≠ 0 ∧ x = leastFloat := by
  rcases eq_or_ne degrees 0 with rfl | hzero
  · refine iff_of_false ?_ (fun h => h.1 rfl)
    rintro ⟨panic, h⟩
    rw [survival_zero] at h
    cases h
  by_cases hleast : x = leastFloat
  · exact iff_of_true ⟨_, hleast ▸ survival_least hzero⟩ ⟨hzero, hleast⟩
  · refine iff_of_false ?_ (fun h => hleast h.2)
    rintro ⟨panic, h⟩
    cases hx : x.isNaN with
    | true =>
        rw [survival_nan hzero hx] at h
        cases h
    | false =>
        obtain ⟨p, hp, -⟩ := exists_survival haccurate hzero hd hx hleast
        rw [hp] at h
        cases h

/-- What the test answers to any statistic and any number of degrees that fits in 64 bits, a
statistics library within an error being there:

1. it is refused as a breach of an invariant exactly if there are no degrees or the statistic
   is not a number;
2. it breaks off exactly if there are degrees and the statistic is the least positive float;
3. otherwise there is an answer between zero and one, and the library's error is the most by
   which it is off the tail. -/
theorem survival_cases (haccurate : GammaLibrary.Accurate error) (statistic : Float)
    (degrees : ℕ) (hd : degrees < UInt64.size) :
    ((∃ text, survival statistic degrees = .error (.refused (.invariant text))) ↔
      degrees = 0 ∨ statistic.isNaN = true) ∧
    ((∃ panic, survival statistic degrees = .error (.panicked panic)) ↔
      degrees ≠ 0 ∧ statistic = leastFloat) ∧
    (degrees ≠ 0 → statistic.isNaN = false → statistic ≠ leastFloat →
      ∃ p, survival statistic degrees = .ok p ∧ p.isFinite = true ∧
        0 ≤ value p ∧ value p ≤ 1 ∧ |(value p : ℝ) - tail statistic degrees| ≤ error) :=
  ⟨refused_iff haccurate statistic hd, panicked_iff haccurate statistic hd,
    fun hzero hx hne => exists_survival haccurate hzero hd hx hne⟩

end Answers

/-! ## A library with an error -/

/-- The mass above a number, rounded to fifty-two binary places. -/
noncomputable def roundedMass (a x : Float) : Float :=
  Float.ofNat ⌊massAbove (value a) (value x) * 2 ^ 52 + 1 / 2⌋₊ / Float.ofNat (2 ^ 52)

/-- Whole numbers of such places are floats. -/
theorem value_ofNat_div {n : ℕ} (hn : n ≤ 2 ^ 52) :
    (Float.ofNat n / Float.ofNat (2 ^ 52)).isFinite = true ∧
      value (Float.ofNat n / Float.ofNat (2 ^ 52)) = n / 2 ^ 52 := by
  obtain ⟨hcount, hvalue⟩ := value_ofNat (n := n) (by omega)
  obtain ⟨hplaces, hplace⟩ := value_ofNat (n := 2 ^ 52) (by decide)
  have hround := roundsTo_div hcount hplaces (by rw [hplace]; positivity)
  have hquotient : value (Float.ofNat n) / value (Float.ofNat (2 ^ 52)) = n / 2 ^ 52 := by
    rw [hvalue, hplace]
    push_cast
    rfl
  have hexact : rounded (n / 2 ^ 52) = n / 2 ^ 52 := by
    have hwhole := rounded_natCast_mul (n := n) (t := -52) (by omega) (by decide)
    rwa [zpow_neg, ← div_eq_mul_inv] at hwhole
  rw [hquotient] at hround
  have hfinite : (Float.ofNat n / Float.ofNat (2 ^ 52)).isFinite = true := by
    have hone : (n : ℚ) / 2 ^ 52 ≤ 1 := (div_le_one (by positivity)).mpr (by exact_mod_cast hn)
    rw [hround.finite_iff, abs_of_nonneg (by positivity)]
    exact hone.trans_lt (two_pow_lt_overflowPoint (k := 0) (by decide))
  exact ⟨hfinite, by rw [hround.value_eq hfinite, hexact]⟩

theorem roundedMass_accurate : @GammaLibrary.Accurate ⟨roundedMass⟩ (1 / 2 ^ 53) := by
  intro a x ha hx hapos hxpos
  have hapos : (0 : ℝ) < value a := by exact_mod_cast hapos
  have hlow := massAbove_nonneg (value a) (value x)
  have hhigh := massAbove_le_one hapos (value x)
  show (roundedMass a x).isFinite = true ∧ |(value (roundedMass a x) : ℝ) - _| ≤ _
  unfold roundedMass
  generalize massAbove (value a) (value x) = m at hlow hhigh ⊢
  have hpos : 0 ≤ m * 2 ^ 52 + 1 / 2 := by positivity
  have hcount : ⌊m * 2 ^ 52 + 1 / 2⌋₊ ≤ 2 ^ 52 := by
    rw [← Nat.lt_add_one_iff, Nat.floor_lt hpos]
    push_cast
    linarith
  obtain ⟨hfinite, hvalue⟩ := value_ofNat_div hcount
  refine ⟨hfinite, ?_⟩
  have hbelow := Nat.floor_le hpos
  have habove := Nat.lt_floor_add_one (m * 2 ^ 52 + 1 / 2)
  rw [hvalue, Rat.cast_div, Rat.cast_natCast, Rat.cast_pow, Rat.cast_ofNat, abs_le]
  generalize (⌊m * 2 ^ 52 + 1 / 2⌋₊ : ℝ) = n at hbelow habove ⊢
  constructor
  · linarith
  · linarith

/-- The second float from zero, the least that has a half. -/
theorem survival_cases_second :
    ∃ lib : GammaLibrary, @GammaLibrary.Accurate lib (1 / 2 ^ 53) ∧ 1 < UInt64.size ∧
      ∃ p, @survival lib 1e-323 1 = .ok p ∧ 0 ≤ value p ∧ value p ≤ 1 ∧
        |(value p : ℝ) - tail 1e-323 1| ≤ 1 / 2 ^ 53 := by
  refine ⟨⟨roundedMass⟩, roundedMass_accurate, by decide, ?_⟩
  have hcases := @survival_cases _ ⟨roundedMass⟩ roundedMass_accurate 1e-323 1 (by decide)
  obtain ⟨p, hp, -, hanswer⟩ :=
    hcases.2.2 (by decide) (by decide +kernel) (by decide +kernel)
  exact ⟨p, hp, hanswer⟩

/-- The least float is a positive number, and with a degree of freedom there is no answer. -/
theorem survival_least_panics :
    (0 : Float) < 5e-324 ∧ (5e-324 : Float).isFinite = true ∧
      ∃ panic, survival 5e-324 1 = .error (.panicked panic) := by
  have hleast : (5e-324 : Float) = leastFloat := by decide +kernel
  rw [hleast]
  exact ⟨by decide, by decide, _, survival_least (by decide)⟩

end MarketSignals.ChiSquared
