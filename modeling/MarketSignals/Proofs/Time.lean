import MarketSignals.Time

/-!
# Conversion of instants

An instant is converted to its count of nanoseconds, held at zero below and at the greatest
signed count above.  A count that is too small for a signed word is held at the greatest one
as well, so the earliest instants are converted like the latest.  From there on the
conversion keeps the order of the counts.  That is the order of the instants except during
a leap second, whose counts run on into the next second.

## Main definitions

* `Instant.TooEarly` — the count is too small for a signed word.

## Main results

* `Instant.exactNanos_lt_iff` — where the order of the counts is not that of the instants.
* `Timestamp.toNat_ofInstant` — what an instant is converted to.
* `Timestamp.conversion_saturates` — the order of what is converted, instants before the
  epoch, and the way back.
-/

namespace MarketSignals

namespace Instant

/-- The count is too small for a signed word. -/
def TooEarly (t : Instant) : Prop := t.exactNanos < -(greatestNanos : Int) - 1

instance (t : Instant) : Decidable t.TooEarly := inferInstanceAs (Decidable (_ < _))

theorem nanos_lt (t : Instant) : t.nanos < 2 * nanosPerSecond := by
  rcases t.in_second with h | ⟨h, -⟩
  · exact Nat.lt_of_lt_of_le h (by decide)
  · exact h

/-- An instant counts less than a second further than a later one. -/
theorem exactNanos_lt_add {a b : Instant} (h : a ≤ b) :
    a.exactNanos < b.exactNanos + nanosPerSecond := by
  have hnanos := a.nanos_lt
  have horder : a.seconds < b.seconds ∨ a.seconds = b.seconds ∧ a.nanos ≤ b.nanos := h
  simp only [exactNanos, nanosPerSecond] at hnanos ⊢
  omega

/-- Only a leap second counts further than a later instant, one of the second after it. -/
theorem exactNanos_lt_iff {a b : Instant} (h : a ≤ b) :
    b.exactNanos < a.exactNanos ↔
      b.seconds = a.seconds + 1 ∧ b.nanos + nanosPerSecond < a.nanos := by
  have hnanos := a.nanos_lt
  have horder : a.seconds < b.seconds ∨ a.seconds = b.seconds ∧ a.nanos ≤ b.nanos := h
  simp only [exactNanos, nanosPerSecond] at hnanos ⊢
  omega

theorem exactNanos_ofNanos (n : Nat) (h : n ≤ greatestNanos) : (ofNanos n h).exactNanos = n := by
  simp only [exactNanos, ofNanos, nanosPerSecond]
  omega

end Instant

namespace Timestamp

/-! ## What an instant is converted to -/

theorem toNat_ofNat_le {n : Nat} (h : n ≤ greatestNanos) : (UInt64.ofNat n).toNat = n :=
  UInt64.toNat_ofNat_of_lt' (Nat.lt_of_le_of_lt h (by decide))

theorem toNat_ofInstant_of_tooEarly {t : Instant} (h : t.TooEarly) :
    (ofInstant t).nanos.toNat = greatestNanos := by
  have hnot : ¬(-(greatestNanos : Int) - 1 ≤ t.exactNanos ∧ t.exactNanos ≤ greatestNanos) :=
    fun hfits => Int.not_le.mpr h hfits.1
  unfold ofInstant
  simp only [hnot, if_false]
  exact toNat_ofNat_le (Nat.le_refl _)

/-- Every other instant is converted to its count, held between zero and the greatest one. -/
theorem toNat_ofInstant {t : Instant} (h : ¬t.TooEarly) :
    (ofInstant t).nanos.toNat = min t.exactNanos.toNat greatestNanos := by
  have hlow : -(greatestNanos : Int) - 1 ≤ t.exactNanos := Int.not_lt.mp h
  unfold ofInstant
  by_cases hhigh : t.exactNanos ≤ greatestNanos
  · have hle : t.exactNanos.toNat ≤ greatestNanos := Int.toNat_le.mpr hhigh
    simp only [hlow, hhigh, and_self, if_true]
    rw [toNat_ofNat_le hle, Nat.min_eq_left hle]
  · have hle : greatestNanos ≤ t.exactNanos.toNat := by omega
    simp only [hhigh, and_false, if_false]
    rw [toNat_ofNat_le (Nat.le_refl _), Nat.min_eq_right hle]

theorem ofInstant_eq_zero_iff {t : Instant} :
    (ofInstant t).nanos = 0 ↔ ¬t.TooEarly ∧ t.exactNanos ≤ 0 := by
  have hpos : 0 < greatestNanos := by decide
  rw [← UInt64.toNat_inj, UInt64.toNat_zero]
  by_cases hearly : t.TooEarly
  · rw [toNat_ofInstant_of_tooEarly hearly]
    exact iff_of_false (Nat.ne_of_gt hpos) fun hnot => hnot.1 hearly
  · rw [toNat_ofInstant hearly]
    simp only [hearly, not_false_eq_true, true_and]
    omega

/-! ## Order -/

/-- A later instant is converted to less when the earlier one is too early, or counts further
as a leap second does. -/
theorem ofInstant_lt_iff {a b : Instant} (h : a ≤ b) :
    (ofInstant b).nanos < (ofInstant a).nanos ↔
      b.exactNanos < greatestNanos ∧
        (a.TooEarly ∧ ¬b.TooEarly ∨
          0 < a.exactNanos ∧ b.seconds = a.seconds + 1 ∧ b.nanos + nanosPerSecond < a.nanos) := by
  have hpos : 0 < greatestNanos := by decide
  have hsecond : nanosPerSecond ≤ greatestNanos := by decide
  have hclose := Instant.exactNanos_lt_add h
  rw [UInt64.lt_iff_toNat_lt, ← Instant.exactNanos_lt_iff h]
  by_cases ha : a.TooEarly <;> by_cases hb : b.TooEarly
  · rw [toNat_ofInstant_of_tooEarly ha, toNat_ofInstant_of_tooEarly hb]
    simp only [Instant.TooEarly] at ha hb ⊢
    omega
  · rw [toNat_ofInstant_of_tooEarly ha, toNat_ofInstant hb]
    simp only [Instant.TooEarly] at ha hb ⊢
    omega
  · rw [toNat_ofInstant ha, toNat_ofInstant_of_tooEarly hb]
    simp only [Instant.TooEarly] at ha hb ⊢
    omega
  · rw [toNat_ofInstant ha, toNat_ofInstant hb]
    simp only [Instant.TooEarly] at ha hb ⊢
    omega

/-! ## There and back -/

theorem exactNanos_toInstant (t : Timestamp) :
    t.toInstant.exactNanos = (min t.nanos.toNat greatestNanos : Nat) :=
  Instant.exactNanos_ofNanos _ _

theorem toNat_ofInstant_toInstant (t : Timestamp) :
    (ofInstant t.toInstant).nanos.toNat = min t.nanos.toNat greatestNanos := by
  have hexact := t.exactNanos_toInstant
  have hnot : ¬t.toInstant.TooEarly := by
    unfold Instant.TooEarly
    omega
  rw [toNat_ofInstant hnot, hexact, Int.toNat_natCast]
  exact Nat.min_eq_left (Nat.min_le_right _ _)

/-- How the conversion saturates.  A later instant is converted to less exactly if it is
converted to less than the greatest count and the earlier one is too early or a leap second
that counts further.  An instant before the epoch is converted to zero exactly if it is not
too early and does not count past the epoch, and to the greatest count if it is too early.
A timestamp comes back as it was, cut at the greatest count. -/
theorem conversion_saturates (a b : Instant) (t : Timestamp) :
    (a ≤ b →
      ((ofInstant b).nanos < (ofInstant a).nanos ↔
        b.exactNanos < greatestNanos ∧
          (a.TooEarly ∧ ¬b.TooEarly ∨
            0 < a.exactNanos ∧ b.seconds = a.seconds + 1 ∧
              b.nanos + nanosPerSecond < a.nanos))) ∧
    (a.seconds < 0 →
      ((ofInstant a).nanos = 0 ↔ ¬a.TooEarly ∧ a.exactNanos ≤ 0) ∧
        (a.TooEarly → (ofInstant a).nanos.toNat = greatestNanos)) ∧
    (ofInstant t.toInstant).nanos.toNat = min t.nanos.toNat greatestNanos :=
  ⟨ofInstant_lt_iff, fun _ => ⟨ofInstant_eq_zero_iff, toNat_ofInstant_of_tooEarly⟩,
    toNat_ofInstant_toInstant t⟩

/-- The middle of a leap second of the first minute. -/
def leapSecond : Instant := ⟨59, 1500000000, by decide, by decide⟩

/-- The second after it. -/
def secondMinute : Instant := ⟨60, 0, by decide, by decide⟩

/-- The last nanosecond before the epoch. -/
def beforeEpoch : Instant := ⟨-1, 999999999, by decide, by decide⟩

/-- A leap second counts further than the second after it, the last nanosecond before the epoch
is converted to zero, and the greatest timestamp comes back cut. -/
theorem conversion_saturates_leapSecond :
    leapSecond ≤ secondMinute ∧ (ofInstant secondMinute).nanos < (ofInstant leapSecond).nanos ∧
      beforeEpoch.seconds < 0 ∧ (ofInstant beforeEpoch).nanos = 0 ∧
      (ofInstant (toInstant ⟨18446744073709551615⟩)).nanos.toNat = greatestNanos := by
  obtain ⟨horder, -, hback⟩ := conversion_saturates leapSecond secondMinute ⟨18446744073709551615⟩
  obtain ⟨-, hbefore, -⟩ := conversion_saturates beforeEpoch secondMinute ⟨0⟩
  have hle : leapSecond ≤ secondMinute := .inl (by decide)
  exact ⟨hle, (horder hle).mpr (by decide), by decide,
    (hbefore (by decide)).1.mpr (by decide), hback⟩

/-! ### The earliest instants -/

/-- The first instant of the epoch. -/
def epoch : Instant := ⟨0, 0, by decide, by decide⟩

/-- The first instant of the year one. -/
def yearOne : Instant := ⟨-62135596800, 0, by decide, by decide⟩

/-- The year one comes before the epoch, is not converted to zero, and is converted to more
than the epoch. -/
theorem yearOne_converted_past_epoch :
    yearOne ≤ epoch ∧ yearOne.seconds < 0 ∧ (ofInstant yearOne).nanos ≠ 0 ∧
      (ofInstant epoch).nanos < (ofInstant yearOne).nanos :=
  ⟨.inl (by decide), by decide, by decide, by decide⟩

end Timestamp

end MarketSignals
