import Mathlib.Data.Nat.Sqrt
import MarketSignals.Proofs.Float.Bounds

/-!
# Square roots of floats

A square root is computed from the root of a whole number, and what is left over says on
which side of the middle between two whole numbers the exact root lies.  The exact root is
seldom a rational number, so it is known by the numbers on either side of it: whatever they
are, the float is what some number between them rounds to.

## Main definitions

* `accuracyOfRoot` — what the rest of a whole root says of the exact root.

## Main results

* `exists_represents_sqrt` — a whole root with its rest stands for the exact root.
* `exists_roundsTo_sqrt` — the square root of a float rounds the exact root.
* `between_sqrt` — it is finite and not negative.
-/

namespace MarketSignals.Rounding

open Decimal (Represents two_zpow_pos targetExponent_eq)
open Float.Model (Format UnpackedFloat totalExponent)
open Float.Model.UnpackedFloat (ExtendedMantissa Accuracy roundWithAccuracy sqrtCore)

variable {x : Float} {lo hi : ℚ}

/-! ## Whole roots -/

/-- On which side of the middle between two whole numbers an exact root lies.  The middle
squares to a quarter more than a whole number, so no rest is that of the middle. -/
def accuracyOfRoot (rest root : ℕ) : Accuracy :=
  if rest = 0 then .exact else .inexact (if rest ≤ root then .lt else .gt)

/-- Two intervals have a number in common if neither ends before the other begins. -/
theorem exists_common {a b : ℚ} (hab : a < b) (hlohi : lo ≤ hi) (hb : lo < b) (ha : a < hi) :
    ∃ y, (a < y ∧ y < b) ∧ lo ≤ y ∧ y ≤ hi := by
  rcases lt_or_ge a lo with hlo | hlo
  · exact ⟨lo, ⟨hlo, hb⟩, le_rfl, hlohi⟩
  · obtain ⟨y, hay, hy⟩ := exists_between (lt_min hab ha)
    exact ⟨y, ⟨hay, hy.trans_le (min_le_left b hi)⟩, hlo.trans hay.le,
      (hy.trans_le (min_le_right b hi)).le⟩

/-- A whole root with its rest stands for a number between any that the exact root lies
between. -/
theorem exists_represents_sqrt {n : ℕ} (hhi : 0 ≤ hi) (hlow : lo ^ 2 ≤ n) (hhigh : n ≤ hi ^ 2) :
    ∃ y, Represents (ExtendedMantissa.ofMantissaAndAccuracy n.sqrt
      (accuracyOfRoot (n - n.sqrt * n.sqrt) n.sqrt)) y ∧ lo ≤ y ∧ y ≤ hi := by
  have hnext := Nat.lt_succ_sqrt n
  obtain ⟨rest, hn⟩ := Nat.exists_eq_add_of_le (Nat.sqrt_le n)
  generalize n.sqrt = r at hnext hn ⊢
  have hr : (0 : ℚ) ≤ r := Nat.cast_nonneg r
  have hvalue : (n : ℚ) = r ^ 2 + rest := by
    rw [hn]
    push_cast
    ring
  have hlohi : lo ≤ hi := le_of_sq_le_sq (hlow.trans hhigh) hhi
  -- the exact root lies between two numbers whose squares are less and more
  have hbelow : ∀ b : ℚ, 0 ≤ b → (n : ℚ) < b ^ 2 → lo < b := fun b hb h =>
    lt_of_pow_lt_pow_left₀ 2 hb (hlow.trans_lt h)
  have habove : ∀ a : ℚ, a ^ 2 < n → a < hi := fun a h =>
    lt_of_pow_lt_pow_left₀ 2 hhi (h.trans_le hhigh)
  rw [show n - r * r = rest by omega]
  unfold accuracyOfRoot
  split
  next hzero =>
    rw [hzero, Nat.cast_zero, add_zero] at hvalue
    rw [hvalue] at hlow hhigh
    exact ⟨r, rfl, le_of_sq_le_sq hlow hr, le_of_sq_le_sq hhigh hhi⟩
  next hrest =>
    have hpos : (1 : ℚ) ≤ rest := by exact_mod_cast Nat.one_le_iff_ne_zero.mpr hrest
    split
    next hle =>
      have hle' : (rest : ℚ) ≤ r := by exact_mod_cast hle
      show ∃ y, ((r : ℚ) < y ∧ y < r + 1 / 2) ∧ lo ≤ y ∧ y ≤ hi
      exact exists_common (by linarith) hlohi (hbelow _ (by linarith) (by linarith))
        (habove _ (by linarith))
    next hgt =>
      have hgt' : (r : ℚ) + 1 ≤ rest := by exact_mod_cast not_le.mp hgt
      have hnext' : (n : ℚ) < (r + 1) * (r + 1) := by exact_mod_cast hnext
      show ∃ y, ((r : ℚ) + 1 / 2 < y ∧ y < r + 1) ∧ lo ≤ y ∧ y ≤ hi
      exact exists_common (by linarith) hlohi (hbelow _ (by linarith) (by linarith))
        (habove _ (by linarith))

/-! ## Square roots -/

/-- A radicand is given enough places for its root to have fifty-three bits, unless the root
has the least exponent. -/
theorem log2_root {m : ℕ} {e t : ℤ} {k : ℕ} (hm : 0 < m)
    (ht : t = min (e / 2) (Format.binary64.targetExponent ((totalExponent m e + 1) / 2)))
    (hk : k = (e - 2 * t).toNat) : 52 ≤ (m <<< k).sqrt.log2 ∨ t ≤ -1074 := by
  have htarget : Format.binary64.targetExponent ((totalExponent m e + 1) / 2) =
      max (((m.log2 : ℤ) + 1 + e + 1) / 2 - 53) (-1074) := by
    have h : Format.binary64.minExponent = -1074 := by decide
    show max _ Format.binary64.minExponent = _
    rw [h]
    rfl
  by_cases hleast : t ≤ -1074
  · exact .inr hleast
  left
  have hplaces : 52 + 52 ≤ m.log2 + k := by omega
  have hroot : 2 ^ 52 ≤ (m <<< k).sqrt := by
    rw [Nat.le_sqrt, ← pow_add, Nat.shiftLeft_eq]
    calc 2 ^ (52 + 52) ≤ 2 ^ (m.log2 + k) := Nat.pow_le_pow_right (by decide) hplaces
      _ = 2 ^ m.log2 * 2 ^ k := pow_add _ _ _
      _ ≤ m * 2 ^ k := Nat.mul_le_mul_right _ (Nat.log2_self_le (Nat.ne_of_gt hm))
  exact (Nat.le_log2 (Nat.ne_of_gt ((Nat.two_pow_pos 52).trans_le hroot))).mpr hroot

/-- What a square root computes is a whole root with its rest, with enough bits. -/
theorem exists_sqrtCore {m : ℕ} (hm : 0 < m) (e : ℤ) :
    ∃ (n : ℕ) (t : ℤ), sqrtCore Format.binary64 m e =
        (n.sqrt, t, accuracyOfRoot (n - n.sqrt * n.sqrt) n.sqrt) ∧
      (52 ≤ n.sqrt.log2 ∨ t ≤ -1074) ∧ (m : ℚ) * 2 ^ e = n * (2 ^ t) ^ 2 := by
  obtain ⟨t, ht⟩ : ∃ t, t = min (e.ediv 2)
      (Format.binary64.targetExponent ((totalExponent m e + 1).ediv 2)) := ⟨_, rfl⟩
  obtain ⟨k, hk⟩ : ∃ k, k = (e - 2 * t).toNat := ⟨_, rfl⟩
  refine ⟨m <<< k, t, ?_, log2_root hm ht hk, ?_⟩
  · simp only [sqrtCore, ← ht, ← hk]
    rfl
  · have hle : t ≤ e / 2 := ht.trans_le (min_le_left _ _)
    obtain rfl : e = k + t * 2 := by omega
    rw [zpow_add₀ (by norm_num), zpow_mul, zpow_natCast, Nat.shiftLeft_eq]
    push_cast
    exact (mul_assoc _ _ _).symm

/-- The square root of a float is what some number rounds to, of those between any two that
the exact root lies between.  A zero keeps its sign. -/
theorem exists_roundsTo_sqrt (hx : x.isFinite = true) (hnonneg : 0 ≤ value x) (hhi : 0 ≤ hi)
    (hlow : lo ^ 2 ≤ value x) (hhigh : value x ≤ hi ^ 2) :
    ∃ q, RoundsTo x.sqrt q ∧ lo ≤ q ∧ q ≤ hi := by
  show ∃ q, RoundsTo (packed (UnpackedFloat.sqrt Format.binary64 x.toModel.unpack)) q ∧ _
  rcases finite_cases hx with ⟨s, hs⟩ | ⟨d, hd, s, hs⟩
  · rw [value_of_zero hs, ← zero_pow two_ne_zero] at hlow
    rw [hs]
    exact ⟨0, roundsTo_zero s rounded_zero, le_of_sq_le_sq hlow le_rfl, hhi⟩
  obtain rfl : s = .positive := by
    rw [value_of_finite hs] at hnonneg
    cases s
    · exact absurd (value_canonical_pos hd) (not_lt.mpr (neg_nonneg.mp hnonneg))
    · rfl
  obtain ⟨n, t, hcore, hbits, hvalue⟩ := exists_sqrtCore hd.pos d.exponent
  have hunit : (0 : ℚ) < 2 ^ t := two_zpow_pos t
  rw [value_of_finite hs, show signed .positive d.value = n * (2 ^ t) ^ 2 from hvalue] at hlow hhigh
  -- the exact root is counted in units of the computed one
  have hlow' : (lo / 2 ^ t) ^ 2 ≤ n := by
    rwa [div_pow, div_le_iff₀ (pow_pos hunit 2)]
  have hhigh' : n ≤ (hi / 2 ^ t) ^ 2 := by
    rwa [div_pow, le_div_iff₀ (pow_pos hunit 2)]
  obtain ⟨y, hy, hloy, hyhi⟩ := exists_represents_sqrt (div_nonneg hhi hunit.le) hlow' hhigh'
  have hround : UnpackedFloat.sqrt Format.binary64 x.toModel.unpack =
      roundWithAccuracy Format.binary64 .positive n.sqrt t
        (accuracyOfRoot (n - n.sqrt * n.sqrt) n.sqrt) := by
    rw [hs]
    show roundWithAccuracy Format.binary64 .positive
      (sqrtCore Format.binary64 d.mantissa d.exponent).1
      (sqrtCore Format.binary64 d.mantissa d.exponent).2.1
      (sqrtCore Format.binary64 d.mantissa d.exponent).2.2 = _
    rw [hcore]
  rw [hround]
  exact ⟨y * 2 ^ t, roundsTo_roundWithAccuracy hy hbits .positive,
    (div_le_iff₀ hunit).mp hloy, (le_div_iff₀ hunit).mp hyhi⟩

/-- The square root of a finite float that is not negative is finite and not negative. -/
theorem between_sqrt (hx : x.isFinite = true) (hnonneg : 0 ≤ value x) :
    Between x.sqrt 0 (2 ^ 512) := by
  have hhigh : value x ≤ (2 ^ 512) ^ 2 := by
    have hrange : overflowPoint ≤ 2 ^ 1024 := sub_le_self _ (by positivity)
    rw [← pow_mul]
    exact ((le_abs_self _).trans_lt (abs_value_lt hx)).le.trans hrange
  have hlow : 0 ^ 2 ≤ value x := (zero_pow two_ne_zero).trans_le hnonneg
  have hroot : (0 : ℚ) ≤ 2 ^ 512 := by positivity
  obtain ⟨q, hq, hlow, hhigh⟩ := exists_roundsTo_sqrt hx hnonneg hroot hlow hhigh
  exact hq.between exactly_zero (exactly_two_pow (by decide)) hlow hhigh

end MarketSignals.Rounding
