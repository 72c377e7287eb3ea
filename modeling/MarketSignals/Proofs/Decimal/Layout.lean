import MarketSignals.Decimal.Numeral

/-!
# Numerals that a writer lays out

A writer puts at least one digit in front of the point, no zero before other digits
there, and nothing but digits on either side.  Messages write no exponent, so the text
of a float inside one has no letter unless it is the name of a value without digits.

## Main definitions

* `Numeral.Proper` — numerals of this form.

## Main results

* `Style.proper_layOut` — what is laid out has it.
* `getLast?_text` — how the text of a float in a message ends.
-/

namespace MarketSignals.Decimal

/-! ## Digits of a natural -/

/-- Only zero is written with a leading zero. -/
theorem head?_toDigits {n : Nat} (hn : 0 < n) : (Nat.toDigits 10 n).head? ≠ some '0' := by
  induction n using Nat.strongRecOn with
  | ind n ih =>
      rw [Nat.toDigits_eq_if (by decide)]
      split
      · next hlt =>
          -- the digit characters of 1 up to 9
          have hdigit : ∀ d < 10, 0 < d → Nat.digitChar d ≠ '0' := by decide
          simpa using hdigit n hlt hn
      · next hge =>
          have hpos : 0 < n / 10 := Nat.div_pos (by omega) (by decide)
          have hhead := ih (n / 10) (Nat.div_lt_self hn (by decide)) hpos
          rwa [List.head?_append, Option.or_of_isSome]
          exact List.isSome_head?.mpr Nat.toDigits_ne_nil

/-- Digits count in the last place. -/
theorem digitsValue_toDigits (n : Nat) : Numeral.digitsValue (Nat.toDigits 10 n) = n :=
  Nat.ofDigitChars_toDigits (by decide) (by decide)

/-! ## Numerals as they are laid out -/

/-- A numeral of digits only, with one in front of the point. -/
structure Numeral.Proper (n : Numeral) : Prop where
  whole_ne_nil : n.whole ≠ []
  isDigit_whole : ∀ c ∈ n.whole, c.isDigit = true
  isDigit_fraction : ∀ c ∈ n.fraction, c.isDigit = true

theorem isDigit_toDigits {n : Nat} {c : Char} (hc : c ∈ Nat.toDigits 10 n) : c.isDigit = true :=
  Nat.isDigit_of_mem_toDigits (by decide) (by decide) hc

theorem isDigit_replicate {k : Nat} {c : Char} (hc : c ∈ List.replicate k '0') :
    c.isDigit = true := by
  rw [List.eq_of_mem_replicate hc]
  rfl

namespace Style

/-- The first digits of a natural are at least one. -/
theorem take_toDigits_ne_nil (n : Nat) {k : Nat} (hk : 0 < k) :
    (Nat.toDigits 10 n).take k ≠ [] := by
  intro htake
  rcases List.take_eq_nil_iff.mp htake with rfl | hnil
  · exact Nat.lt_irrefl 0 hk
  · exact Nat.toDigits_ne_nil hnil

theorem proper_layOut (style : Style) (negative : Bool) (d : Digits) :
    (style.layOut negative d).Proper := by
  unfold layOut
  simp only
  split
  · split
    · refine ⟨by simp, ?_, ?_⟩
      · intro c hc
        rcases List.mem_append.mp hc with hc | hc
        · exact isDigit_toDigits hc
        · exact isDigit_replicate hc
      · intro c hc
        split at hc
        · rw [List.mem_singleton.mp hc]
          rfl
        · cases hc
    · split
      · exact ⟨take_toDigits_ne_nil _ (Nat.succ_pos _),
          fun c hc => isDigit_toDigits (List.mem_of_mem_take hc),
          fun c hc => isDigit_toDigits (List.mem_of_mem_drop hc)⟩
      · refine ⟨by simp, by simp, ?_⟩
        intro c hc
        rcases List.mem_append.mp hc with hc | hc
        · exact isDigit_replicate hc
        · exact isDigit_toDigits hc
  · exact ⟨take_toDigits_ne_nil _ Nat.one_pos,
      fun c hc => isDigit_toDigits (List.mem_of_mem_take hc),
      fun c hc => isDigit_toDigits (List.mem_of_mem_drop hc)⟩

end Style

/-! ## Floats in messages -/

/-- Messages write no exponent. -/
theorem exponent_layOut_message (negative : Bool) (d : Digits) :
    (Style.message.layOut negative d).exponent = none := by
  unfold Style.layOut
  simp only [Style.message, if_true]
  split
  · rfl
  · split <;> rfl

/-- A numeral without an exponent ends in a digit. -/
theorem Numeral.Proper.getLast?_chars {n : Numeral} (hn : n.Proper) (he : n.exponent = none) :
    ∃ c, (n.chars false).getLast? = some c ∧ c.isDigit = true := by
  have hsome : ∀ {digits : List Char}, digits ≠ [] → (∀ c ∈ digits, c.isDigit = true) →
      ∀ front, ∃ c, (front ++ digits).getLast? = some c ∧ c.isDigit = true := by
    intro digits hne hdigits front
    refine ⟨digits.getLast hne, ?_, hdigits _ (List.getLast_mem hne)⟩
    rw [List.getLast?_append, List.getLast?_eq_some_getLast hne]
    rfl
  unfold Numeral.chars
  rw [he, List.append_nil]
  by_cases hfraction : n.fraction = []
  · rw [if_pos hfraction, List.append_nil]
    exact hsome hn.whole_ne_nil hn.isDigit_whole _
  · rw [if_neg hfraction, List.append_cons]
    exact hsome hfraction hn.isDigit_fraction _

/-- The text of a float in a message ends in a digit, or in the last letter of one of
the names `NaN` and `inf`. -/
theorem getLast?_text (x : Float) :
    ∃ c, (text x).toList.getLast? = some c ∧ (c.isDigit = true ∨ c = 'N' ∨ c = 'f') := by
  unfold text write
  split
  · next n hn =>
      obtain ⟨negative, d, rfl⟩ : ∃ negative d, n = Style.message.layOut negative d := by
        unfold Style.numeral? at hn
        split at hn
        · cases hn
        · cases hn
        · exact ⟨_, _, (Option.some.inj hn).symm⟩
        · exact ⟨_, _, (Option.some.inj hn).symm⟩
      obtain ⟨c, hc, hdigit⟩ := (Style.message.proper_layOut negative d).getLast?_chars
        (exponent_layOut_message negative d)
      exact ⟨c, by rw [String.toList_ofList, hc], .inl hdigit⟩
  · unfold exceptionalText
    split
    · exact ⟨'N', rfl, .inr (.inl rfl)⟩
    · split
      · exact ⟨'f', rfl, .inr (.inr rfl)⟩
      · exact ⟨'f', rfl, .inr (.inr rfl)⟩

end MarketSignals.Decimal
