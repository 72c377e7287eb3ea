import Mathlib.Algebra.Order.Field.Basic
import Mathlib.Tactic.Linarith
import Mathlib.Tactic.Positivity
import Mathlib.Tactic.Ring
import Mathlib.Tactic.FieldSimp
import MarketSignals.Proofs.Decimal.Words

/-!
# Which numbers round to a float

Every float owns an interval of numbers that round to it.  Rounding is computed with two
bits behind the mantissa, which say where between two mantissas a number lies, and with
two shifts, the second of which only moves a carry.  This module shows that what is
computed is the float in whose interval the number lies.

## Main definitions

* `Dyadic.Rounds` — the numbers that round to the float of a magnitude.
* `Represents` — the numbers that a mantissa with its two bits may stand for.
* `Nearest` — the whole number nearest to a number, the even one of two.

## Main results

* `Represents.shiftRight` — a shift halves what is represented.
* `Represents.nearest` — the rounded mantissa is the nearest whole number.
* `roundWithAccuracy_eq` — a number is rounded to the float whose interval it lies in.
-/

namespace MarketSignals.Decimal

open Float.Model (Format totalExponent)
open Float.Model.UnpackedFloat (Sign ExtendedMantissa Accuracy shiftToTargetExponent
  shiftToExponent roundWithAccuracy)

/-! ## Intervals -/

theorem two_zpow_pos (e : ℤ) : (0 : ℚ) < 2 ^ e := zpow_pos (by norm_num) e

/-- The exact value of a dyadic number. -/
def Dyadic.value (d : Dyadic) : ℚ := d.mantissa * 2 ^ d.exponent

/-- How far down the interval of a float reaches, in quarters of a unit of its mantissa.
Below a power of two the next float is half as far away. -/
def Dyadic.below (d : Dyadic) : ℚ := if d.mantissa = 2 ^ 52 ∧ d.exponent ≠ -1074 then 1 else 2

/-- A number that rounds to the float of a magnitude: nothing is nearer, and of two floats
equally near the even one is taken. -/
structure Dyadic.Rounds (d : Dyadic) (q : ℚ) : Prop where
  low : (4 * d.mantissa - d.below) * 2 ^ d.exponent ≤ 4 * q
  high : 4 * q ≤ (4 * d.mantissa + 2) * 2 ^ d.exponent
  odd : d.mantissa % 2 = 1 →
    (4 * d.mantissa - d.below) * 2 ^ d.exponent < 4 * q ∧
      4 * q < (4 * d.mantissa + 2) * 2 ^ d.exponent

/-! ## Extended mantissas -/

/-- The number that a mantissa with its two residual bits stands for lies at its lower
half, at its middle, at its upper half, or is the mantissa itself. -/
def Represents (em : ExtendedMantissa) (y : ℚ) : Prop :=
  match em.roundBit, em.stickyBit with
  | false, false => y = em.mantissa
  | false, true => em.mantissa < y ∧ y < em.mantissa + 1 / 2
  | true, false => y = em.mantissa + 1 / 2
  | true, true => em.mantissa + 1 / 2 < y ∧ y < em.mantissa + 1

/-- What a mantissa stands for is the mantissa itself if both bits are down, and lies
strictly between it and the next if one is up. -/
theorem Represents.exact_or_between {em : ExtendedMantissa} {y : ℚ} (h : Represents em y) :
    (em.roundBit || em.stickyBit) = false ∧ y = em.mantissa ∨
      (em.roundBit || em.stickyBit) = true ∧ em.mantissa < y ∧ y < em.mantissa + 1 := by
  obtain ⟨m, r, s⟩ := em
  cases r with
  | false =>
      cases s with
      | false => exact .inl ⟨rfl, h⟩
      | true =>
          obtain ⟨hlow, hhigh⟩ : (m : ℚ) < y ∧ y < m + 1 / 2 := h
          exact .inr ⟨rfl, hlow, by linarith⟩
  | true =>
      cases s with
      | false =>
          obtain rfl : y = m + 1 / 2 := h
          exact .inr ⟨rfl, by linarith, by linarith⟩
      | true =>
          obtain ⟨hlow, hhigh⟩ : (m : ℚ) + 1 / 2 < y ∧ y < m + 1 := h
          exact .inr ⟨rfl, by linarith, hhigh⟩

theorem Represents.bounds {em : ExtendedMantissa} {y : ℚ} (h : Represents em y) :
    (em.mantissa : ℚ) ≤ y ∧ y < em.mantissa + 1 := by
  rcases h.exact_or_between with ⟨-, rfl⟩ | ⟨-, hlow, hhigh⟩
  · exact ⟨le_refl _, lt_add_one _⟩
  · exact ⟨hlow.le, hhigh⟩

/-- The last bit of the mantissa becomes the round bit, and both bits go into the sticky
one. -/
theorem Represents.shiftRightOne {em : ExtendedMantissa} {y : ℚ} (h : Represents em y) :
    Represents em.shiftRightOne (y / 2) := by
  have hsum : ((em.mantissa % 2 : ℕ) : ℚ) + 2 * ((em.mantissa / 2 : ℕ) : ℚ) = em.mantissa := by
    exact_mod_cast Nat.mod_add_div em.mantissa 2
  unfold ExtendedMantissa.shiftRightOne
  rcases Nat.mod_two_eq_zero_or_one em.mantissa with hm | hm
  · rw [hm, Nat.cast_zero, zero_add] at hsum
    rcases h.exact_or_between with ⟨hbits, rfl⟩ | ⟨hbits, hlow, hhigh⟩
    · rw [hm, hbits, ← hsum]
      exact mul_div_cancel_left₀ _ two_ne_zero
    · rw [hm, hbits]
      exact ⟨by linarith, by linarith⟩
  · rw [hm, Nat.cast_one] at hsum
    rcases h.exact_or_between with ⟨hbits, rfl⟩ | ⟨hbits, hlow, hhigh⟩
    · rw [hm, hbits, ← hsum]
      show (1 + 2 * ((em.mantissa / 2 : ℕ) : ℚ)) / 2 = (em.mantissa / 2 : ℕ) + 1 / 2
      ring
    · rw [hm, hbits]
      exact ⟨by linarith, by linarith⟩

/-- A shift halves the number once for every place. -/
theorem Represents.shiftRight {em : ExtendedMantissa} {y : ℚ} (h : Represents em y) (k : ℕ) :
    Represents (em >>> k) (y / 2 ^ k) := by
  show Represents (k.repeat ExtendedMantissa.shiftRightOne em) _
  induction k with
  | zero => simpa [Nat.repeat] using h
  | succ k ih =>
      have hstep := ih.shiftRightOne
      rwa [div_div, ← pow_succ] at hstep

/-- A whole number that nothing is nearer to, and which is even if another is as near. -/
structure Nearest (n : ℕ) (y : ℚ) : Prop where
  low : (n : ℚ) - 1 / 2 ≤ y
  high : y ≤ n + 1 / 2
  odd : n % 2 = 1 → (n : ℚ) - 1 / 2 < y ∧ y < n + 1 / 2

/-- No two whole numbers are nearest: only the even one of two neighbours has the
middle. -/
theorem Nearest.le {m n : ℕ} {y : ℚ} (hm : Nearest m y) (hn : Nearest n y) : m ≤ n := by
  by_contra hlt
  have hm' := hm.low
  have hn' := hn.high
  have hle : (m : ℚ) ≤ n + 1 := by linarith
  have hle' : m ≤ n + 1 := by exact_mod_cast hle
  obtain rfl : m = n + 1 := by omega
  push_cast at hm'
  rcases Nat.mod_two_eq_zero_or_one n with heven | hodd
  · have hstrict := (hm.odd (by omega)).1
    push_cast at hstrict
    linarith
  · have hstrict := (hn.odd hodd).2
    linarith

theorem Nearest.unique {m n : ℕ} {y : ℚ} (hm : Nearest m y) (hn : Nearest n y) : m = n :=
  Nat.le_antisymm (hm.le hn) (hn.le hm)

theorem Nearest.of_lt {n : ℕ} {y : ℚ} (hlow : (n : ℚ) - 1 / 2 < y) (hhigh : y < n + 1 / 2) :
    Nearest n y :=
  ⟨hlow.le, hhigh.le, fun _ => ⟨hlow, hhigh⟩⟩

/-- The rounded mantissa is the whole number nearest to what is represented. -/
theorem Represents.nearest {em : ExtendedMantissa} {y : ℚ} (h : Represents em y) :
    Nearest em.roundedMantissa y := by
  obtain ⟨m, roundBit, stickyBit⟩ := em
  cases roundBit with
  | false =>
      have hround : ExtendedMantissa.roundedMantissa ⟨m, false, stickyBit⟩ = m := by
        cases stickyBit <;> rfl
      have hbounds : (m : ℚ) ≤ y ∧ y < m + 1 / 2 := by
        cases stickyBit <;> simp only [Represents] at h <;> constructor <;> linarith
      rw [hround]
      exact .of_lt (by linarith) hbounds.2
  | true =>
      cases stickyBit with
      | false =>
          simp only [Represents] at h
          have hround : ExtendedMantissa.roundedMantissa ⟨m, true, false⟩ = m + m % 2 := rfl
          rw [hround]
          rcases Nat.mod_two_eq_zero_or_one m with heven | hodd
          · rw [heven, Nat.add_zero]
            exact ⟨by linarith, h.le, fun hodd => by omega⟩
          · rw [hodd]
            refine ⟨?_, ?_, fun hodd' => by omega⟩
            · push_cast
              linarith
            · push_cast
              linarith
      | true =>
          simp only [Represents] at h
          have hround : ExtendedMantissa.roundedMantissa ⟨m, true, true⟩ = m + 1 := rfl
          rw [hround]
          refine .of_lt ?_ ?_
          · push_cast
            linarith
          · push_cast
            linarith

/-! ## Rounding to the format -/

theorem targetExponent_eq (m : ℕ) (e : ℤ) :
    Format.binary64.targetExponent (totalExponent m e) = max ((m.log2 : ℤ) + e - 52) (-1074) := by
  have h : Format.binary64.minExponent = -1074 := by decide
  show max ((m.log2 : ℤ) + 1 + e - (53 : ℕ)) Format.binary64.minExponent = _
  rw [h]
  congr 1
  omega

theorem log2_le_of_lt {m : ℕ} (hm : m < 2 ^ 53) : m.log2 ≤ 52 := by
  by_cases hzero : m = 0
  · rw [hzero, Nat.log2_zero]
    exact Nat.zero_le 52
  · exact Nat.lt_succ_iff.mp ((Nat.log2_lt hzero).mpr hm)

/-- A mantissa that fits stays as it is. -/
theorem shiftToTargetExponent_self {m : ℕ} {e : ℤ} (hm : m < 2 ^ 53) (he : -1074 ≤ e) :
    shiftToTargetExponent Format.binary64 m e .exact = (⟨m, false, false⟩, e) := by
  have hlog := log2_le_of_lt hm
  have hshift : (Format.binary64.targetExponent (totalExponent m e) - e).toNat = 0 := by
    rw [targetExponent_eq]
    omega
  simp [shiftToTargetExponent, shiftToExponent, hshift, HShiftRight.hShiftRight, Nat.repeat,
    ExtendedMantissa.ofMantissaAndAccuracy]

/-- A mantissa that rounding carried one bit too far loses its last bit, a zero. -/
theorem shiftToTargetExponent_carry {e : ℤ} (he : -1074 ≤ e) :
    shiftToTargetExponent Format.binary64 (2 ^ 53) e .exact = (⟨2 ^ 52, false, false⟩, e + 1) := by
  have hshift : (Format.binary64.targetExponent (totalExponent (2 ^ 53) e) - e).toNat = 1 := by
    rw [targetExponent_eq, Nat.log2_two_pow]
    omega
  unfold shiftToTargetExponent shiftToExponent
  simp only [hshift]
  rfl

theorem Dyadic.below_le (d : Dyadic) : d.below ≤ 2 := by
  unfold below
  split <;> norm_num

theorem Dyadic.below_eq_two {d : Dyadic} (h : d.mantissa ≠ 2 ^ 52) : d.below = 2 :=
  if_neg fun hand => h hand.1

/-- A number that is counted in the right unit rounds to a float with that unit, or to the
power of two that it falls short of. -/
theorem Dyadic.Rounds.exponent_eq {d : Dyadic} (hd : d.Canonical) {y : ℚ} {t : ℤ}
    (hrounds : d.Rounds (y * 2 ^ t)) (hlt : y < 2 ^ 53) (hleast : -1074 ≤ t)
    (hnormal : t = -1074 ∨ 2 ^ 52 ≤ y) :
    d.exponent = t ∨ d.exponent = t + 1 ∧ d.mantissa = 2 ^ 52 := by
  have hM : (d.mantissa : ℚ) + 1 ≤ 2 ^ 53 := by exact_mod_cast hd.lt
  have hbelow := d.below_le
  have hdleast := hd.least
  have htpos : (0 : ℚ) < 2 ^ t := two_zpow_pos t
  have hEpos : (0 : ℚ) < 2 ^ d.exponent := two_zpow_pos d.exponent
  have hhigh := hrounds.high
  have hlow := hrounds.low
  rcases lt_trichotomy d.exponent t with hE | hE | hE
  · -- the number would lie above the interval
    exfalso
    have hy : (2 : ℚ) ^ 52 ≤ y := hnormal.resolve_left (by omega)
    have hstep : (2 : ℚ) * 2 ^ d.exponent ≤ 2 ^ t := by
      rw [← zpow_one_add₀ (by norm_num)]
      exact zpow_le_zpow_right₀ (by norm_num) (by omega)
    have h1 : (2 : ℚ) ^ 52 * 2 ^ t ≤ y * 2 ^ t := mul_le_mul_of_nonneg_right hy htpos.le
    nlinarith
  · exact .inl hE
  · right
    have hM' : (2 : ℚ) ^ 52 ≤ d.mantissa := by
      exact_mod_cast hd.normal.resolve_right (by omega)
    have h1 : y * 2 ^ t < 2 ^ 53 * 2 ^ t := mul_lt_mul_of_pos_right hlt htpos
    have hE' : d.exponent = t + 1 := by
      by_contra hne
      have hstep : (4 : ℚ) * 2 ^ t ≤ 2 ^ d.exponent := by
        have h4 : (4 : ℚ) * 2 ^ t = 2 ^ (2 + t) := by
          rw [zpow_add₀ (by norm_num)]
          norm_num
        rw [h4]
        exact zpow_le_zpow_right₀ (by norm_num) (by omega)
      nlinarith
    refine ⟨hE', ?_⟩
    by_contra hne
    have hM'' : (2 : ℚ) ^ 52 + 1 ≤ d.mantissa := by
      have hlt : 2 ^ 52 < d.mantissa :=
        lt_of_le_of_ne (by exact_mod_cast hM') (Ne.symm hne)
      exact_mod_cast hlt
    have hstep : (2 : ℚ) ^ d.exponent = 2 * 2 ^ t := by
      rw [hE', zpow_add_one₀ (by norm_num), mul_comm]
    rw [hstep] at hlow
    nlinarith

/-- The mantissa of a float is the nearest whole number, counted in its own unit. -/
theorem Dyadic.Rounds.nearest {d : Dyadic} {y : ℚ} (hrounds : d.Rounds (y * 2 ^ d.exponent)) :
    Nearest d.mantissa y := by
  have hpos : (0 : ℚ) < 2 ^ d.exponent := two_zpow_pos d.exponent
  have hlow := hrounds.low
  have hhigh := hrounds.high
  rw [← mul_assoc] at hlow hhigh
  have hlow' := le_of_mul_le_mul_right hlow hpos
  have hhigh' := le_of_mul_le_mul_right hhigh hpos
  have hbelow := d.below_le
  refine ⟨by linarith, by linarith, ?_⟩
  intro hodd
  obtain ⟨hlow, hhigh⟩ := hrounds.odd hodd
  rw [← mul_assoc] at hlow hhigh
  have hlow' := lt_of_mul_lt_mul_right hlow hpos.le
  have hhigh' := lt_of_mul_lt_mul_right hhigh hpos.le
  exact ⟨by linarith, by linarith⟩

/-- A number of fifty-three bits rounds to the float with the nearest mantissa. -/
theorem Nearest.rounds {n : ℕ} {y : ℚ} (h : Nearest n y) (hnormal : 2 ^ 52 ≤ y) (t : ℤ) :
    Dyadic.Rounds ⟨n, t⟩ (y * 2 ^ t) := by
  have hpos : (0 : ℚ) < 2 ^ t := two_zpow_pos t
  have hlow := h.low
  have hhigh := h.high
  have hbelow : 4 * (n : ℚ) - Dyadic.below ⟨n, t⟩ ≤ 4 * y := by
    unfold Dyadic.below
    split
    · next hpower =>
        simp only at hpower
        rw [hpower.1]
        push_cast
        linarith
    · linarith
  refine ⟨?_, ?_, ?_⟩
  · rw [← mul_assoc]
    exact mul_le_mul_of_nonneg_right hbelow hpos.le
  · rw [← mul_assoc]
    exact mul_le_mul_of_nonneg_right (by linarith) hpos.le
  · intro hodd
    have hne : n ≠ 2 ^ 52 := by
      rintro rfl
      exact absurd hodd (show ¬2 ^ 52 % 2 = 1 by decide)
    obtain ⟨hlow', hhigh'⟩ := h.odd hodd
    rw [Dyadic.below_eq_two (show Dyadic.mantissa ⟨n, t⟩ ≠ 2 ^ 52 from hne), ← mul_assoc]
    exact ⟨mul_lt_mul_of_pos_right (by linarith) hpos, mul_lt_mul_of_pos_right (by linarith) hpos⟩

/-- A number just short of fifty-four bits rounds to the power of two above it. -/
theorem Nearest.rounds_carry {y : ℚ} (h : Nearest (2 ^ 53) y) (hlt : y < 2 ^ 53) {t : ℤ}
    (ht : -1074 ≤ t) : Dyadic.Rounds ⟨2 ^ 52, t + 1⟩ (y * 2 ^ t) := by
  have hpos : (0 : ℚ) < 2 ^ t := two_zpow_pos t
  have hbelow : Dyadic.below ⟨2 ^ 52, t + 1⟩ = 1 := by
    refine if_pos ⟨rfl, ?_⟩
    show t + 1 ≠ -1074
    omega
  have hlow := h.low
  push_cast at hlow
  refine ⟨?_, ?_, fun hodd => absurd hodd (show ¬2 ^ 52 % 2 = 1 by decide)⟩
  · rw [hbelow, zpow_add_one₀ (by norm_num)]
    push_cast
    nlinarith
  · rw [zpow_add_one₀ (by norm_num)]
    push_cast
    nlinarith

/-- A number of fifty-three bits rounds to some float if its unit is in range. -/
theorem Nearest.exists_rounds {n : ℕ} {y : ℚ} (h : Nearest n y) (hnormal : 2 ^ 52 ≤ y)
    (hlt : y < 2 ^ 53) {t : ℤ} (hleast : -1074 ≤ t) (hgreatest : t < 971) :
    ∃ d : Dyadic, d.Canonical ∧ d.Rounds (y * 2 ^ t) := by
  have hlow : 2 ^ 52 ≤ n := by
    have hhigh := h.high
    have hsucc : (2 : ℚ) ^ 52 < (n + 1 : ℕ) := by
      push_cast
      linarith
    have hsucc' : 2 ^ 52 < n + 1 := by exact_mod_cast hsucc
    omega
  have hhigh : n ≤ 2 ^ 53 := by
    have hlow := h.low
    have hsucc : (n : ℚ) < (2 ^ 53 + 1 : ℕ) := by
      push_cast
      linarith
    have hsucc' : n < 2 ^ 53 + 1 := by exact_mod_cast hsucc
    omega
  by_cases hcarry : n = 2 ^ 53
  · subst hcarry
    exact ⟨⟨2 ^ 52, t + 1⟩, .normalized (by omega) (by decide) (by omega) (by omega),
      h.rounds_carry hlt hleast⟩
  · exact ⟨⟨n, t⟩, .normalized hlow (by omega) hleast (by omega), h.rounds hnormal t⟩

/-- The first shift of a number with enough bits counts it in the unit of the float that
it will round to, or of the one below. -/
theorem exists_firstShift {m : ℕ} {e : ℤ} {a : Accuracy} {y : ℚ}
    (hy : Represents (ExtendedMantissa.ofMantissaAndAccuracy m a) y)
    (hbits : 52 ≤ m.log2 ∨ e ≤ -1074) :
    ∃ em t z, shiftToTargetExponent Format.binary64 m e a = (em, t) ∧ Represents em z ∧
      y * 2 ^ e = z * 2 ^ t ∧ z < 2 ^ 53 ∧ -1074 ≤ t ∧ (t = -1074 ∨ 2 ^ 52 ≤ z) := by
  obtain ⟨t, ht⟩ : ∃ t, t = max ((m.log2 : ℤ) + e - 52) (-1074) := ⟨_, rfl⟩
  obtain ⟨k, hk⟩ : ∃ k : ℕ, e + k = t := ⟨(t - e).toNat, by omega⟩
  have hmantissa : (ExtendedMantissa.ofMantissaAndAccuracy m a).mantissa = m := by
    cases a with
    | exact => rfl
    | inexact o => cases o <;> rfl
  obtain ⟨hym, hyM⟩ := hy.bounds
  rw [hmantissa] at hym hyM
  have hkpos : (0 : ℚ) < 2 ^ k := by positivity
  refine ⟨ExtendedMantissa.ofMantissaAndAccuracy m a >>> k, t, y / 2 ^ k, ?_, hy.shiftRight k,
    ?_, ?_, by omega, ?_⟩
  · unfold shiftToTargetExponent shiftToExponent
    rw [targetExponent_eq, ← ht]
    have hshift : (t - e).toNat = k := by omega
    simp only [hshift, hk]
  · rw [← hk, zpow_add₀ (by norm_num), zpow_natCast]
    field_simp
  · have hm : (m : ℚ) + 1 ≤ 2 ^ (53 + k) := by
      have hlog : m < 2 ^ (m.log2 + 1) := Nat.lt_log2_self
      have hpow : 2 ^ (m.log2 + 1) ≤ 2 ^ (53 + k) := Nat.pow_le_pow_right (by decide) (by omega)
      exact_mod_cast Nat.lt_of_lt_of_le hlog hpow
    rw [div_lt_iff₀ hkpos, ← pow_add]
    linarith
  · by_cases hleast : t = -1074
    · exact .inl hleast
    right
    have hlog : m.log2 = 52 + k := by omega
    have hm : (2 : ℚ) ^ (52 + k) ≤ m := by
      have hne : m ≠ 0 := by
        rintro rfl
        rw [Nat.log2_zero] at hlog
        omega
      exact_mod_cast hlog ▸ Nat.log2_self_le hne
    rw [le_div_iff₀ hkpos, ← pow_add]
    linarith

/-- Rounding is two shifts, with the mantissa rounded between them. -/
theorem roundWithAccuracy_of_shifts {s : Sign} {m n : ℕ} {e t E : ℤ} {a : Accuracy}
    {em : ExtendedMantissa}
    (hfirst : shiftToTargetExponent Format.binary64 m e a = (em, t))
    (hsecond : shiftToTargetExponent Format.binary64 em.roundedMantissa t .exact =
      (⟨n, false, false⟩, E))
    (hn : 0 < n) : roundWithAccuracy Format.binary64 s m e a = .finite s n E hn := by
  unfold roundWithAccuracy
  rw [hfirst]
  dsimp only
  rw [hsecond]
  exact dif_neg (Nat.ne_of_gt hn)

/-- What is computed exactly, to enough bits, is rounded to the float it rounds to. -/
theorem roundWithAccuracy_eq {d : Dyadic} (hd : d.Canonical) {m : ℕ} {e : ℤ} {a : Accuracy}
    {y : ℚ} (hy : Represents (ExtendedMantissa.ofMantissaAndAccuracy m a) y)
    (hbits : 52 ≤ m.log2 ∨ e ≤ -1074) (hrounds : d.Rounds (y * 2 ^ e)) (negative : Bool) :
    roundWithAccuracy Format.binary64 (signOf negative) m e a = d.unpacked hd negative := by
  obtain ⟨em, t, z, hfirst, hz, hvalue, hlt, hleast, hnormal⟩ := exists_firstShift hy hbits
  rw [hvalue] at hrounds
  rcases hrounds.exponent_eq hd hlt hleast hnormal with hE | ⟨hE, hM⟩
  · subst hE
    refine roundWithAccuracy_of_shifts hfirst ?_ hd.pos
    rw [hz.nearest.unique hrounds.nearest, shiftToTargetExponent_self hd.lt hd.least]
  · -- the number is just below a power of two and is carried up to it
    have hpos : (0 : ℚ) < 2 ^ t := two_zpow_pos t
    have hbelow : d.below = 1 := if_pos ⟨hM, by omega⟩
    have hlow := hrounds.low
    rw [hbelow, hM, hE, zpow_add_one₀ (by norm_num)] at hlow
    have hlow' : (2 : ℚ) ^ 53 - 1 / 2 ≤ z := by
      push_cast at hlow
      nlinarith
    have hcarry : em.roundedMantissa = 2 ^ 53 := by
      refine hz.nearest.unique ⟨?_, ?_, fun hodd => absurd hodd (by decide)⟩
      · push_cast
        exact hlow'
      · push_cast
        linarith
    refine roundWithAccuracy_of_shifts hfirst ?_ hd.pos
    rw [hcarry, shiftToTargetExponent_carry hleast, hM, hE]

end MarketSignals.Decimal
