import MarketSignals.Proofs.Float.Infinite

/-!
# Negated floats

Negation is exact, and rounding does not favour a sign: what a number and its negation round to
are each other's negation, infinities included.  They are compared as floats, which takes the
two zeros for one.

## Main results

* `value_neg` — a negated float.
* `neg_lt_neg_iff_lt` — negation turns the order around.
* `RoundsTo.beq_neg` — a number and its negation, rounded.
-/

namespace MarketSignals.Rounding

open Decimal (signOf isFinite_neg)

variable {x y : Float} {q : ℚ}

theorem signed_signOf_not (negative : Bool) (q : ℚ) :
    signed (signOf !negative) q = -signed (signOf negative) q := by
  cases negative
  · rfl
  · exact (neg_neg q).symm

/-- A negated float stands for the negated number. -/
theorem value_neg (hx : x.isFinite = true) : value (-x) = -value x := by
  rcases Decimal.of_eq_of_isFinite hx with ⟨negative, h⟩ | ⟨negative, d, h⟩
  · have hnegative : value (-0) = 0 := value_of_zero (s := .negative) rfl
    have hpositive : value (- -0) = 0 := value_of_zero (s := .positive) rfl
    obtain rfl := Decimal.eq_zero_of_zero h
    cases negative
    · show value (-0) = -value 0
      rw [hnegative, value_zero, neg_zero]
    · show value (- -0) = -value (-0)
      rw [hpositive, hnegative, neg_zero]
  · obtain ⟨hd, rfl⟩ := Decimal.eq_float_of_finite h
    rw [Decimal.neg_float, value_float, value_float, signed_signOf_not]

/-- Negation turns the order around. -/
theorem neg_lt_neg_iff_lt (hx : x.isFinite = true) (hy : y.isFinite = true) :
    -x < -y ↔ y < x := by
  rw [lt_iff_value (isFinite_neg hx) (isFinite_neg hy), lt_iff_value hy hx, value_neg hx,
    value_neg hy, neg_lt_neg_iff]

/-- A number and its negation are rounded to floats of which one is the other's negation. -/
theorem RoundsTo.beq_neg (hx : RoundsTo x q) (hy : RoundsTo y (-q)) : (y == -x) = true := by
  rcases hx.cases with ⟨hfinite, hrange, hvalue⟩ | ⟨rfl, hlarge⟩ | ⟨rfl, hlarge⟩
  · have hfinite' : y.isFinite = true := by rwa [hy.finite_iff, abs_neg]
    rw [beq_iff_value hfinite' (isFinite_neg hfinite), value_neg hfinite, hy.value_eq hfinite',
      rounded_neg, hvalue]
  · have hpos := overflowPoint_pos
    rcases hy.cases with ⟨-, hrange, -⟩ | ⟨-, hlarge'⟩ | ⟨rfl, -⟩
    · rw [abs_neg] at hrange
      exact absurd hrange (not_lt.mpr (hlarge.trans (le_abs_self q)))
    · linarith
    · decide
  · rw [hy.eq_infinity (le_neg_of_le_neg hlarge)]
    decide

end MarketSignals.Rounding
