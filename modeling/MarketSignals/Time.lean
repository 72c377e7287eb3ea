import MarketSignals.Json.Codec

/-!
# Event time

A timestamp counts nanoseconds since the Unix epoch in 64 bits.  A calendar
instant is held as whole seconds and nanoseconds within the second; during a
leap second the nanoseconds run past a thousand million.  Only instants from
year -262143 to year 262142 exist.

Converting an instant to a timestamp saturates: before the epoch at zero, and
at the greatest signed 64-bit count wherever the exact count does not fit in
one.
-/

namespace MarketSignals

/-- Nanoseconds since the Unix epoch. -/
structure Timestamp where
  nanos : UInt64
  deriving Repr, DecidableEq

/-- Nanoseconds in a second. -/
def nanosPerSecond : Nat := 1000000000

/-- The greatest signed 64-bit count of nanoseconds. -/
def greatestNanos : Nat := UInt64.size / 2 - 1

/-- A UTC instant. -/
structure Instant where
  seconds : Int
  nanos : Nat
  /-- The year is one that the calendar has. -/
  in_calendar : -8334601228800 ≤ seconds ∧ seconds ≤ 8210266876799
  /-- Nanoseconds are within the second, which only a leap second extends. -/
  in_second : nanos < nanosPerSecond ∨ (nanos < 2 * nanosPerSecond ∧ seconds % 60 = 59)
  deriving Repr, DecidableEq

namespace Instant

/-- The instant with the given parts, if there is one. -/
def of? (seconds : Int) (nanos : Nat) : Option Instant :=
  if h : (-8334601228800 ≤ seconds ∧ seconds ≤ 8210266876799) ∧
      (nanos < nanosPerSecond ∨ (nanos < 2 * nanosPerSecond ∧ seconds % 60 = 59)) then
    some ⟨seconds, nanos, h.1, h.2⟩
  else none

/-- Nanoseconds since the epoch, without a bound. -/
def exactNanos (t : Instant) : Int := t.seconds * nanosPerSecond + t.nanos

/-- Instants are ordered by their second, then within it. -/
instance : LE Instant where
  le a b := a.seconds < b.seconds ∨ (a.seconds = b.seconds ∧ a.nanos ≤ b.nanos)

/-- The instant a count of nanoseconds after the epoch; the count fits in a
signed 64-bit word, and every such count is within the calendar. -/
def ofNanos (n : Nat) (h : n ≤ greatestNanos) : Instant where
  seconds := n / nanosPerSecond
  nanos := n % nanosPerSecond
  in_calendar := by
    simp only [greatestNanos, UInt64.size] at h
    simp only [nanosPerSecond]
    omega
  in_second := .inl (Nat.mod_lt _ (by decide))

end Instant

namespace Timestamp

/-- The count with its unit. -/
def text (t : Timestamp) : String := s!"{t.nanos.toNat}ns"

/-- The timestamp of an instant, saturated on both sides. -/
def ofInstant (t : Instant) : Timestamp :=
  let n := t.exactNanos
  if -(greatestNanos : Int) - 1 ≤ n ∧ n ≤ greatestNanos then ⟨UInt64.ofNat n.toNat⟩
  else ⟨UInt64.ofNat greatestNanos⟩

/-- The instant of a timestamp; counts beyond a signed word are cut there. -/
def toInstant (t : Timestamp) : Instant :=
  .ofNanos (min t.nanos.toNat greatestNanos) (Nat.min_le_right _ _)

instance : Codec Timestamp where
  encode t := Codec.encode t.nanos
  decode? place j := (Codec.decode? place j).map Timestamp.mk

end Timestamp

end MarketSignals
