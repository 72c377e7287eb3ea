import MarketSignals.Proofs.Float.Whole

/-!
# Bounds on floats

A bound that is a float itself is kept by rounding: what lies between two floats is rounded
to a float between them.  So the bounds of an operation on floats are those of the exact
operation on their bounds, wherever these are floats in range.

## Main definitions

* `Exactly` — a number that a float stands for.
* `Between` — a finite float within bounds.

## Main results

* `RoundsTo.between` — rounding keeps bounds that are floats.
* `rounded_le_two_mul` — a number is not rounded up to more than its double.
* `foldl_add_between`, `foldl_add_infinite` — sums of bounded floats, and of infinite ones
  among them.
-/

namespace MarketSignals.Rounding

open Decimal (two_zpow_pos)

variable {x y : Float} {q lo hi lo' hi' : ℚ} {n : ℕ}

/-! ## Numbers that floats stand for -/

/-- A number that a float stands for. -/
structure Exactly (q : ℚ) : Prop where
  fixed : rounded q = q
  range : |q| < overflowPoint

theorem Exactly.neg (h : Exactly q) : Exactly (-q) where
  fixed := by rw [rounded_neg, h.fixed]
  range := by rw [abs_neg]; exact h.range

theorem exactly_zero : Exactly 0 where
  fixed := rounded_zero
  range := by rw [abs_zero]; exact overflowPoint_pos

theorem exactly_natCast (hn : n < 2 ^ 53) : Exactly n where
  fixed := rounded_natCast hn
  range := by
    rw [Nat.abs_cast]
    have hlt : (n : ℚ) < 2 ^ 53 := by exact_mod_cast hn
    exact hlt.trans (two_pow_lt_overflowPoint (by decide))

theorem exactly_one : Exactly 1 := by simpa using exactly_natCast (n := 1) (by decide)

theorem exactly_two_zpow {t : ℤ} (hleast : -1074 ≤ t) (hgreatest : t ≤ 1023) :
    Exactly (2 ^ t) where
  fixed := rounded_two_zpow hleast
  range := by
    rw [abs_of_pos (two_zpow_pos t)]
    calc (2 : ℚ) ^ t ≤ 2 ^ ((1023 : ℕ) : ℤ) := zpow_le_zpow_right₀ (by norm_num) hgreatest
      _ = 2 ^ 1023 := zpow_natCast 2 1023
      _ < overflowPoint := two_pow_lt_overflowPoint le_rfl

theorem exactly_two_pow {k : ℕ} (hk : k ≤ 1023) : Exactly (2 ^ k) := by
  rw [← zpow_natCast]
  exact exactly_two_zpow (by omega) (by omega)

theorem exactly_value (hx : x.isFinite = true) : Exactly (value x) where
  fixed := rounded_value_eq hx
  range := abs_value_lt hx

/-- A number is not rounded up to more than its double: a power of two lies between. -/
theorem rounded_le_two_mul (hq : 2 ^ (-1074 : ℤ) ≤ q) : rounded q ≤ 2 * q := by
  have hpos : 0 < q := (two_zpow_pos _).trans_le hq
  have hlog : -1074 ≤ Int.log 2 q :=
    (Int.zpow_le_iff_le_log (b := 2) (by decide) hpos).mp (by exact_mod_cast hq)
  have hlow : (2 : ℚ) ^ Int.log 2 q ≤ q := by
    exact_mod_cast Int.zpow_log_le_self (b := 2) (by decide) hpos
  have hhigh : q < 2 ^ (Int.log 2 q + 1) := by
    exact_mod_cast Int.lt_zpow_succ_log_self (b := 2) (by decide) q
  calc rounded q ≤ rounded (2 ^ (Int.log 2 q + 1)) := rounded_mono hhigh.le
    _ = 2 ^ Int.log 2 q * 2 := by rw [rounded_two_zpow (by omega), zpow_add_one₀ (by norm_num)]
    _ ≤ 2 * q := by linarith

/-! ## Floats within bounds -/

/-- A finite float within bounds. -/
structure Between (x : Float) (lo hi : ℚ) : Prop where
  finite : x.isFinite = true
  low : lo ≤ value x
  high : value x ≤ hi

namespace RoundsTo

/-- Rounding keeps bounds that are floats. -/
theorem between (h : RoundsTo x q) (hlo : Exactly lo) (hhi : Exactly hi) (hlow : lo ≤ q)
    (hhigh : q ≤ hi) : Between x lo hi := by
  have hfinite : x.isFinite = true := by
    rw [h.finite_iff, abs_lt]
    exact ⟨(neg_lt_of_abs_lt hlo.range).trans_le hlow, hhigh.trans_lt (lt_of_abs_lt hhi.range)⟩
  refine ⟨hfinite, ?_, ?_⟩
  · rw [h.value_eq hfinite, ← hlo.fixed]
    exact rounded_mono hlow
  · rw [h.value_eq hfinite, ← hhi.fixed]
    exact rounded_mono hhigh

end RoundsTo

namespace Between

theorem mono (h : Between x lo hi) (hlow : lo' ≤ lo) (hhigh : hi ≤ hi') : Between x lo' hi' :=
  ⟨h.finite, hlow.trans h.low, h.high.trans hhigh⟩

variable {l u : ℚ} (hx : Between x lo hi) (hy : Between y lo' hi') (hl : Exactly l)
  (hu : Exactly u)
include hx hy hl hu

theorem add (hlow : l ≤ lo + lo') (hhigh : hi + hi' ≤ u) : Between (x + y) l u :=
  (roundsTo_add hx.finite hy.finite).between hl hu (hlow.trans (add_le_add hx.low hy.low))
    ((add_le_add hx.high hy.high).trans hhigh)

theorem mul (hlo : 0 ≤ lo) (hlo' : 0 ≤ lo') (hlow : l ≤ lo * lo') (hhigh : hi * hi' ≤ u) :
    Between (x * y) l u :=
  (roundsTo_mul hx.finite hy.finite).between hl hu
    (hlow.trans (mul_le_mul hx.low hy.low hlo' (hlo.trans hx.low)))
    ((mul_le_mul hx.high hy.high (hlo'.trans hy.low)
      (hlo.trans (hx.low.trans hx.high))).trans hhigh)

theorem div (hlo : 0 ≤ lo) (hlo' : 0 < lo') (hlow : l ≤ lo / hi') (hhigh : hi / lo' ≤ u) :
    Between (x / y) l u := by
  have hy0 : 0 < value y := hlo'.trans_le hy.low
  have hx0 : 0 ≤ value x := hlo.trans hx.low
  exact (roundsTo_div hx.finite hy.finite hy0.ne').between hl hu
    (hlow.trans (div_le_div₀ hx0 hx.low hy0 hy.high))
    ((div_le_div₀ (hx0.trans hx.high) hx.high hlo' hy.low).trans hhigh)

end Between

/-- Differences of counts are exact as floats. -/
theorem between_ofNat_sub {m n : ℕ} (hm : m < 2 ^ 53) (hn : n < 2 ^ 53) :
    Between (Float.ofNat m - Float.ofNat n) (m - n) (m - n) := by
  have hexact : Exactly (m - n) := by
    rcases Nat.le_total n m with h | h
    · have hsub := exactly_natCast (n := m - n) (by omega)
      rwa [Nat.cast_sub h] at hsub
    · have hsub := (exactly_natCast (n := n - m) (by omega)).neg
      rwa [Nat.cast_sub h, neg_sub] at hsub
  obtain ⟨hfinite, hvalue⟩ := value_ofNat hm
  obtain ⟨hfinite', hvalue'⟩ := value_ofNat hn
  have hround := roundsTo_sub hfinite hfinite'
  rw [hvalue, hvalue'] at hround
  exact hround.between hexact hexact le_rfl le_rfl

/-- A count that is not zero and fits in 64 bits. -/
theorem between_ofNat (hpos : 0 < n) (hlt : n < UInt64.size) : Between (Float.ofNat n) 1 (2 ^ 64) :=
  (roundsTo_ofNat n).between exactly_one (exactly_two_pow (by decide)) (by exact_mod_cast hpos)
    (by exact_mod_cast hlt.le)

/-! ## Sums -/

section Sums

variable {β : Type} {f : β → Float} {l : List β} {c k : ℕ} {acc : Float}

/-- One more term, one more times its bound. -/
theorem Between.add_term (hacc : Between acc (-(k * c : ℕ)) (k * c : ℕ)) (hx : Between x (-c) c)
    (hk : (k + 1) * c < 2 ^ 53) :
    Between (acc + x) (-((k + 1) * c : ℕ)) ((k + 1) * c : ℕ) := by
  have hcast : (((k + 1) * c : ℕ) : ℚ) = (k * c : ℕ) + c := by
    rw [Nat.succ_mul]
    push_cast
    rfl
  have hexact := exactly_natCast hk
  refine hacc.add hx hexact.neg hexact ?_ hcast.ge
  rw [hcast, neg_add]

/-- A sum of bounded terms is bounded by as many times their bound. -/
theorem foldl_add_between (hf : ∀ e ∈ l, Between (f e) (-c) c)
    (hacc : Between acc (-(k * c : ℕ)) (k * c : ℕ)) (hk : (k + l.length) * c < 2 ^ 53) :
    Between (l.foldl (fun acc e => acc + f e) acc) (-((k + l.length) * c : ℕ))
      ((k + l.length) * c : ℕ) := by
  induction l generalizing acc k with
  | nil => exact hacc
  | cons e l ih =>
      rw [List.length_cons, ← Nat.add_assoc, Nat.add_right_comm] at hk ⊢
      have hone : (k + 1) * c < 2 ^ 53 :=
        (Nat.mul_le_mul_right c (Nat.le_add_right _ _)).trans_lt hk
      exact ih (fun e he => hf e (List.mem_cons_of_mem _ he))
        (hacc.add_term (hf e List.mem_cons_self) hone) hk

/-- No bounded term brings an infinite sum back. -/
theorem foldl_add_infinity (hf : ∀ e ∈ l, Between (f e) (-c) c ∨ f e = infinity) :
    l.foldl (fun acc e => acc + f e) infinity = infinity := by
  induction l with
  | nil => rfl
  | cons e l ih =>
      have hstep : infinity + f e = infinity := by
        rcases hf e List.mem_cons_self with hterm | hterm
        · exact infinity_add hterm.finite
        · rw [hterm]
          rfl
      rw [List.foldl_cons, hstep]
      exact ih fun e he => hf e (List.mem_cons_of_mem _ he)

/-- One infinite term makes the sum infinite: those before it are bounded, and none is the
other infinity. -/
theorem foldl_add_infinite (hf : ∀ e ∈ l, Between (f e) (-c) c ∨ f e = infinity)
    (hinfinite : ∃ e ∈ l, f e = infinity) (hacc : Between acc (-(k * c : ℕ)) (k * c : ℕ))
    (hk : (k + l.length) * c < 2 ^ 53) : l.foldl (fun acc e => acc + f e) acc = infinity := by
  induction l generalizing acc k with
  | nil =>
      obtain ⟨e, he, -⟩ := hinfinite
      exact absurd he List.not_mem_nil
  | cons e l ih =>
      have htail : ∀ e ∈ l, Between (f e) (-c) c ∨ f e = infinity :=
        fun e he => hf e (List.mem_cons_of_mem _ he)
      rw [List.foldl_cons]
      rcases hf e List.mem_cons_self with hterm | hterm
      · rw [List.length_cons, ← Nat.add_assoc, Nat.add_right_comm] at hk
        have hone : (k + 1) * c < 2 ^ 53 :=
          (Nat.mul_le_mul_right c (Nat.le_add_right _ _)).trans_lt hk
        refine ih htail ?_ (hacc.add_term hterm hone) hk
        obtain ⟨e', he', hvalue⟩ := hinfinite
        rcases List.mem_cons.mp he' with rfl | he'
        · rw [hvalue] at hterm
          exact absurd hterm.finite (by decide)
        · exact ⟨e', he', hvalue⟩
      · rw [hterm, add_infinity hacc.finite]
        exact foldl_add_infinity htail

end Sums

end MarketSignals.Rounding
