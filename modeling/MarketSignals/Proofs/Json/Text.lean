import MarketSignals.Json.Codec
import MarketSignals.Proofs.Decimal.ReadBack

/-!
# The text of a value reads back

The writer puts no blanks and escapes little, the reader allows more.  What ties the two
together is that no text of a value runs into what follows it: a string ends at the first
quote that no escape covers, a bracket at its partner, and a number at the first
character that could not continue it.

## Main definitions

* `Plain` — trees that have a text of their own: strings name texts, numbers stand in the
  digits a writer lays out and have a float, and brackets are nested at most so deep.

## Main results

* `Plain.parse?_text` — the text of a plain tree reads as that tree.
* `Plain.holdable` — a plain tree can be held while its tag is looked for.
-/

namespace MarketSignals

namespace Json

open Decimal (Numeral)

/-! ## Numbers -/

/-- What follows a number: a character that cannot continue it, if there is one. -/
def Ends (rest : List Char) : Prop :=
  ∀ c ∈ rest.head?, c.isDigit = false ∧ c ≠ '.' ∧ c ≠ 'e' ∧ c ≠ 'E'

theorem ends_nil : Ends [] := by
  intro c hc
  cases hc

theorem ends_cons {c : Char} {rest : List Char}
    (hc : c.isDigit = false ∧ c ≠ '.' ∧ c ≠ 'e' ∧ c ≠ 'E') : Ends (c :: rest) := by
  intro d hd
  cases hd
  exact hc

/-- A run of digits ends at the first other character. -/
theorem digits?_append {run rest : List Char} (hne : run ≠ [])
    (hrun : ∀ c ∈ run, c.isDigit = true) (hrest : ∀ c ∈ rest.head?, c.isDigit = false) :
    digits? (run ++ rest) = some (run, rest) := by
  have htake : rest.takeWhile Char.isDigit = [] := by
    cases rest with
    | nil => rfl
    | cons c rest => simp [hrest c rfl]
  have hdrop : rest.dropWhile Char.isDigit = rest := by
    cases rest with
    | nil => rfl
    | cons c rest => simp [hrest c rfl]
  simp only [digits?, List.takeWhile_append_of_pos hrun, List.dropWhile_append_of_pos hrun, htake,
    hdrop, List.append_nil, List.isEmpty_iff, hne, if_false]

/-- A whole part is read up to the first character that is no digit. -/
theorem whole?_append {n : Numeral} (hn : n.Canonical) {rest : List Char}
    (hrest : ∀ c ∈ rest.head?, c.isDigit = false) :
    whole? (n.whole ++ rest) = some (n.whole, rest) := by
  rcases hn.leading with hzero | hleading
  · rw [hzero]
    have hnone : rest.head?.any Char.isDigit = false := by
      cases h : rest.head? with
      | none => rfl
      | some c => exact hrest c h
    simp [whole?, hnone]
  · have hwhole : whole? (n.whole ++ rest) = digits? (n.whole ++ rest) := by
      unfold whole?
      split
      · next s hs =>
          cases hw : n.whole with
          | nil => exact absurd hw hn.whole_ne_nil
          | cons c whole =>
              rw [hw] at hs hleading
              exact absurd (congrArg List.head? hs) hleading
      · rfl
    rw [hwhole]
    exact digits?_append hn.whole_ne_nil hn.isDigit_whole hrest

/-- The point and the digits behind it, none of either if there are no digits. -/
def pointChars (fraction : List Char) : List Char :=
  if fraction = [] then [] else '.' :: fraction

theorem fraction?_append {fraction rest : List Char} (hdigits : ∀ c ∈ fraction, c.isDigit = true)
    (hrest : ∀ c ∈ rest.head?, c.isDigit = false ∧ c ≠ '.') :
    fraction? (pointChars fraction ++ rest) = some (fraction, rest) := by
  unfold pointChars
  split
  · next hnil =>
      subst hnil
      cases rest with
      | nil => rfl
      | cons c rest => simp [fraction?, (hrest c rfl).2]
  · next hne => exact digits?_append hne hdigits fun c hc => (hrest c hc).1

/-- The exponent as JSON writes it, always with its sign. -/
def exponentChars : Option Int → List Char
  | none => []
  | some e => 'e' :: (if e < 0 then ['-'] else ['+']) ++ Nat.toDigits 10 e.natAbs

theorem exponent?_append (exponent : Option Int) {rest : List Char} (hrest : Ends rest) :
    exponent? (exponentChars exponent ++ rest) = some (exponent, rest) := by
  cases exponent with
  | none =>
      cases rest with
      | nil => rfl
      | cons c rest =>
          obtain ⟨-, -, he, hE⟩ := hrest c rfl
          simp [exponentChars, exponent?, he, hE]
  | some e =>
      have hdigits : digits? (Nat.toDigits 10 e.natAbs ++ rest) =
          some (Nat.toDigits 10 e.natAbs, rest) :=
        digits?_append Nat.toDigits_ne_nil (fun _ => Decimal.isDigit_toDigits)
          fun c hc => (hrest c hc).1
      by_cases he : e < 0
      · simp [exponentChars, exponent?, exponentSign, he, hdigits, Decimal.digitsValue_toDigits,
          abs_of_neg he]
      · simp [exponentChars, exponent?, exponentSign, he, hdigits, Decimal.digitsValue_toDigits,
          abs_of_nonneg (Int.not_lt.mp he)]

theorem chars_numeral (n : Numeral) :
    n.chars true = (if n.negative then ['-'] else []) ++
      (n.whole ++ (pointChars n.fraction ++ exponentChars n.exponent)) := by
  unfold Numeral.chars pointChars exponentChars
  cases n.exponent <;> simp

/-- The first character of a numeral is its sign or a digit. -/
theorem exists_cons_chars {n : Numeral} (hn : n.Canonical) :
    ∃ c chars, n.chars true = c :: chars ∧ (c = '-' ∨ c.isDigit = true) := by
  obtain ⟨c, whole, hwhole⟩ := List.exists_cons_of_ne_nil hn.whole_ne_nil
  rw [chars_numeral, hwhole]
  split
  · exact ⟨'-', _, rfl, .inl rfl⟩
  · exact ⟨c, _, rfl, .inr (hn.isDigit_whole c (hwhole ▸ List.mem_cons_self))⟩

theorem sign_append {n : Numeral} (hn : n.Canonical) (rest : List Char) :
    sign ((if n.negative then ['-'] else []) ++ (n.whole ++ rest)) =
      (n.negative, n.whole ++ rest) := by
  cases hnegative : n.negative with
  | true => rfl
  | false =>
      obtain ⟨c, whole, hwhole⟩ := List.exists_cons_of_ne_nil hn.whole_ne_nil
      have hdigit : c.isDigit = true := hn.isDigit_whole c (hwhole ▸ List.mem_cons_self)
      have hc : c ≠ '-' := by
        rintro rfl
        exact absurd hdigit (by decide)
      rw [hwhole]
      simp [sign, hc]

/-- What stands behind the whole part begins with no digit, and behind the fraction with
no point either. -/
theorem head?_exponentChars (exponent : Option Int) {rest : List Char} (hrest : Ends rest) :
    ∀ c ∈ (exponentChars exponent ++ rest).head?, c.isDigit = false ∧ c ≠ '.' := by
  intro c hc
  cases exponent with
  | none => exact ⟨(hrest c hc).1, (hrest c hc).2.1⟩
  | some e =>
      cases hc
      exact ⟨rfl, by decide⟩

theorem head?_pointChars {fraction rest : List Char}
    (hrest : ∀ c ∈ rest.head?, c.isDigit = false ∧ c ≠ '.') :
    ∀ c ∈ (pointChars fraction ++ rest).head?, c.isDigit = false := by
  intro c hc
  unfold pointChars at hc
  split at hc
  · exact (hrest c hc).1
  · cases hc
    rfl

/-- A numeral that a writer laid out is read whole. -/
theorem number?_append {n : Numeral} (hn : n.Canonical) {rest : List Char} (hrest : Ends rest) :
    number? (n.chars true ++ rest) = some (n, rest) := by
  have hexponent := head?_exponentChars n.exponent hrest
  simp only [chars_numeral, List.append_assoc, number?, sign_append hn,
    whole?_append hn (head?_pointChars hexponent), Option.bind_eq_bind, Option.bind_some,
    fraction?_append hn.isDigit_fraction hexponent, exponent?_append n.exponent hrest]

/-! ## Strings -/

theorem hexValue?_hexDigit : ∀ d < 16, hexValue? (hexDigit d) = some d := by decide

/-- What a string spells with one character in front: a unit where the writer gives its
number. -/
def pieceOf (c : Char) : Piece :=
  if c.toNat < 32 ∧ c ∉ ['\x08', '\x0c', '\n', '\r', '\t'] then .unit c.toNat else .char c

/-- Pieces with one more in front. -/
def consPiece (p : Piece) (r : List Piece × List Char) : List Piece × List Char :=
  (p :: r.1, r.2)

theorem bind_consPiece (p : Piece) (s : List Char) :
    (do let (ps, rest) ← pieces? s; some (p :: ps, rest)) = (pieces? s).map (consPiece p) := by
  cases pieces? s <;> rfl

theorem pieces?_letter {e c : Char} (he : e ≠ 'u') (hc : unescape? e = some c) (s : List Char) :
    pieces? ('\\' :: e :: s) = (pieces? s).map (consPiece (.char c)) := by
  rw [← bind_consPiece, pieces?]
  · rw [hc]
    rfl
  · rintro a b c d s rfl
    exact absurd rfl he

theorem pieces?_unit {a b c d : Char} {u : Nat} (hu : unit? a b c d = some u) (s : List Char) :
    pieces? ('\\' :: 'u' :: a :: b :: c :: d :: s) = (pieces? s).map (consPiece (.unit u)) := by
  rw [← bind_consPiece, pieces?, hu]
  rfl

theorem pieces?_self {c : Char} (hquote : c ≠ '"') (hslash : c ≠ '\\') (hlow : ¬c.toNat < 32)
    (s : List Char) : pieces? (c :: s) = (pieces? s).map (consPiece (.char c)) := by
  rw [← bind_consPiece, pieces?]
  · rw [if_neg (not_or.mpr ⟨hslash, hlow⟩)]
  · exact hquote
  · rintro a b c d s rfl
    exact absurd rfl hslash
  · rintro e s rfl
    exact absurd rfl hslash

/-- The characters that are escaped by a letter. -/
def letters : List Char := ['"', '\\', '\x08', '\x0c', '\n', '\r', '\t']

/-- A character is one piece, escaped or not. -/
theorem pieces?_escape (c : Char) (s : List Char) :
    pieces? (escape c ++ s) = (pieces? s).map (consPiece (pieceOf c)) := by
  by_cases hletter : c ∈ letters
  · simp only [letters, List.mem_cons, List.not_mem_nil, or_false] at hletter
    rcases hletter with rfl | rfl | rfl | rfl | rfl | rfl | rfl <;>
      exact pieces?_letter (by decide) (by decide) s
  simp only [letters, List.mem_cons, List.not_mem_nil, or_false, not_or] at hletter
  obtain ⟨hquote, hslash, hb, hf, hn, hr, ht⟩ := hletter
  simp only [escape, hquote, hslash, hb, hf, hn, hr, ht, if_false]
  by_cases hlow : c.toNat < 32
  · have hpiece : pieceOf c = .unit c.toNat := by simp [pieceOf, hlow, hb, hf, hn, hr, ht]
    have hunit : unit? '0' '0' (hexDigit (c.toNat / 16)) (hexDigit (c.toNat % 16)) =
        some c.toNat := by
      have hzero : hexValue? '0' = some 0 := by decide
      have hsum : 16 * (c.toNat / 16) + c.toNat % 16 = c.toNat := by omega
      simp [unit?, hzero, hexValue?_hexDigit (c.toNat / 16) (by omega),
        hexValue?_hexDigit (c.toNat % 16) (by omega), hsum]
    rw [if_pos hlow, hpiece]
    exact pieces?_unit hunit s
  · have hpiece : pieceOf c = .char c := by simp [pieceOf, hlow]
    rw [if_neg hlow, hpiece]
    exact pieces?_self hquote hslash hlow s

theorem pieces?_flatMap (s rest : List Char) :
    pieces? (s.flatMap escape ++ '"' :: rest) = some (s.map pieceOf, rest) := by
  induction s with
  | nil => rfl
  | cons c s ih => rw [List.flatMap_cons, List.append_assoc, pieces?_escape, ih]; rfl

/-- A unit below the halves of pairs is a character of its own. -/
theorem spell?_unit {u : Nat} (hu : u < 32) (ps : List Piece) :
    spell? (.unit u :: ps) = (spell? ps).map (Char.ofNat u :: ·) := by
  have hhigh : isHigh u = false := by simp [isHigh]; omega
  have hlow : isLow u = false := by simp [isLow]; omega
  match ps with
  | [] => simp [spell?, hhigh, hlow]
  | .char c :: ps => simp [spell?, hhigh, hlow]
  | .unit v :: ps => simp [spell?, hhigh, hlow]

theorem spell?_map_pieceOf (s : List Char) : spell? (s.map pieceOf) = some s := by
  induction s with
  | nil => rfl
  | cons c s ih =>
      rw [List.map_cons, pieceOf]
      split
      · next h => rw [spell?_unit h.1, ih, Option.map_some, Char.ofNat_toNat]
      · rw [spell?, ih, Option.map_some]

/-- A quoted string reads back, up to its own closing quote. -/
theorem string?_quote (s : String) (rest : List Char) :
    string? (s.toList.flatMap escape ++ '"' :: rest) = some (some s, rest) := by
  simp only [string?, pieces?_flatMap, Option.bind_eq_bind, Option.bind_some, spell?_map_pieceOf,
    Option.map_some, String.ofList_toList]

/-! ## Values -/

/-- A tree with a text of its own, of at most `room` levels of brackets. -/
inductive Plain : (room : Nat) → Json → Prop where
  | null {room : Nat} : Plain room null
  | bool {room : Nat} (b : Bool) : Plain room (bool b)
  | num {room : Nat} {n : Numeral} (canonical : n.Canonical) (float : n.toFloat?.isSome) :
      Plain room (num n)
  | str {room : Nat} (s : String) : Plain room (str (some s))
  | arr {room : Nat} {items : List Json} (items_plain : ∀ x ∈ items, Plain room x) :
      Plain (room + 1) (arr items)
  | obj {room : Nat} {members : List (Option String × Json)}
      (names : ∀ m ∈ members, m.1.isSome) (values_plain : ∀ m ∈ members, Plain room m.2) :
      Plain (room + 1) (obj members)

/-- The characters that no number starts with. -/
def opening : List Char := ['n', 't', 'f', '"', '[', '{', ']', ' ', '\t', '\n', '\r']

theorem not_mem_opening {c : Char} (hc : c = '-' ∨ c.isDigit = true) : c ∉ opening := by
  intro hmem
  have hall : (opening.all fun d => d != '-' && !d.isDigit) = true := by rfl
  have hno := List.all_eq_true.mp hall c hmem
  rw [Bool.and_eq_true, bne_iff_ne, Bool.not_eq_true'] at hno
  rcases hc with hsign | hdigit
  · exact hno.1 hsign
  · rw [hdigit] at hno
    cases hno.2

theorem isBlank_eq_false {c : Char} (hc : c ∉ opening) : isBlank c = false := by
  simp only [opening, List.mem_cons, not_or] at hc
  simp [isBlank, hc]

theorem skipBlanks_cons {c : Char} (hc : isBlank c = false) (s : List Char) :
    skipBlanks (c :: s) = c :: s := by
  simp [skipBlanks, hc]

/-- The first character of a plain value is neither a blank nor a closing bracket. -/
theorem Plain.exists_cons {room : Nat} {j : Json} (hj : Plain room j) :
    ∃ c s, chars j = c :: s ∧ isBlank c = false ∧ c ≠ ']' := by
  cases hj with
  | null => exact ⟨'n', _, rfl, rfl, by decide⟩
  | bool b =>
      cases b with
      | false => exact ⟨'f', _, rfl, rfl, by decide⟩
      | true => exact ⟨'t', _, rfl, rfl, by decide⟩
  | num canonical _ =>
      obtain ⟨c, s, hchars, hc⟩ := exists_cons_chars canonical
      have hopening := not_mem_opening hc
      refine ⟨c, s, hchars, isBlank_eq_false hopening, ?_⟩
      rintro rfl
      exact hopening (by decide)
  | str s => exact ⟨'"', _, rfl, rfl, by decide⟩
  | @arr _ items _ =>
      cases items with
      | nil => exact ⟨'[', _, rfl, rfl, by decide⟩
      | cons x items => exact ⟨'[', _, rfl, rfl, by decide⟩
  | @obj _ members _ _ =>
      cases members with
      | nil => exact ⟨'{', _, rfl, rfl, by decide⟩
      | cons m members => exact ⟨'{', _, rfl, rfl, by decide⟩

/-- A value is read back from its characters, whatever follows them. -/
def Reads (j : Json) : Prop :=
  ∀ (fuel : Nat) {rest : List Char}, (chars j).length ≤ fuel → Ends rest →
    value? fuel (chars j ++ rest) = some (j, rest)

theorem ends_itemsChars (items : List Json) (rest : List Char) :
    Ends (itemsChars items ++ ']' :: rest) := by
  cases items with
  | nil => exact ends_cons (by decide)
  | cons x items => exact ends_cons (by decide)

theorem ends_membersChars (members : List (Option String × Json)) (rest : List Char) :
    Ends (membersChars members ++ '}' :: rest) := by
  cases members with
  | nil => exact ends_cons (by decide)
  | cons m members => exact ends_cons (by decide)

theorem items?_comma (fuel : Nat) (s : List Char) :
    items? (fuel + 1) (',' :: s) =
      (value? fuel s).bind fun r => (items? fuel r.2).bind fun t => some (r.1 :: t.1, t.2) :=
  rfl

/-- Items behind the first are read up to the closing bracket. -/
theorem items?_itemsChars {items : List Json} (hitems : ∀ x ∈ items, Reads x) (fuel : Nat)
    (hfuel : (itemsChars items).length < fuel) (rest : List Char) :
    items? fuel (itemsChars items ++ ']' :: rest) = some (items, rest) := by
  obtain ⟨fuel, rfl⟩ : ∃ n, fuel = n + 1 := ⟨fuel - 1, by omega⟩
  induction items generalizing fuel with
  | nil => rfl
  | cons x items ih =>
      simp only [itemsChars, List.cons_append, List.append_assoc, List.length_cons,
        List.length_append] at hfuel ⊢
      obtain ⟨fuel, rfl⟩ : ∃ n, fuel = n + 1 := ⟨fuel - 1, by omega⟩
      have hx := hitems x List.mem_cons_self (fuel + 1) (by omega)
        (ends_itemsChars items rest)
      have hrest := ih (fun y hy => hitems y (List.mem_cons_of_mem _ hy)) fuel (by omega)
      rw [items?_comma, hx, Option.bind_some, hrest, Option.bind_some]

theorem member?_quote (fuel : Nat) (s : List Char) :
    member? (fuel + 1) ('"' :: s) = (string? s).bind fun r =>
      match skipBlanks r.2 with
      | ':' :: s => (value? fuel s).bind fun t => some ((r.1, t.1), t.2)
      | _ => none :=
  rfl

/-- A member is read back from its quoted name, a colon and its value. -/
theorem member?_chars {k : Option String} (hk : k.isSome) {x : Json} (hx : Reads x) (fuel : Nat)
    {rest : List Char} (hfuel : (chars x).length < fuel) (hrest : Ends rest) :
    member? fuel (quote k ++ ':' :: (chars x ++ rest)) = some ((k, x), rest) := by
  obtain ⟨fuel, rfl⟩ : ∃ n, fuel = n + 1 := ⟨fuel - 1, by omega⟩
  obtain ⟨k, rfl⟩ := Option.isSome_iff_exists.mp hk
  have hvalue := hx fuel (by omega) hrest
  simp only [quote, Option.getD_some, List.cons_append, List.append_assoc, List.nil_append]
  rw [member?_quote, string?_quote, Option.bind_some, skipBlanks_cons rfl]
  simp only [hvalue, Option.bind_some]

theorem members?_comma (fuel : Nat) (s : List Char) :
    members? (fuel + 1) (',' :: s) =
      (member? fuel s).bind fun r => (members? fuel r.2).bind fun t => some (r.1 :: t.1, t.2) :=
  rfl

/-- Members behind the first are read up to the closing brace. -/
theorem members?_membersChars {members : List (Option String × Json)}
    (hnames : ∀ m ∈ members, m.1.isSome) (hvalues : ∀ m ∈ members, Reads m.2) (fuel : Nat)
    (hfuel : (membersChars members).length < fuel) (rest : List Char) :
    members? fuel (membersChars members ++ '}' :: rest) = some (members, rest) := by
  obtain ⟨fuel, rfl⟩ : ∃ n, fuel = n + 1 := ⟨fuel - 1, by omega⟩
  induction members generalizing fuel with
  | nil => rfl
  | cons m members ih =>
      obtain ⟨k, x⟩ := m
      simp only [membersChars, List.cons_append, List.append_assoc, List.length_cons,
        List.length_append] at hfuel ⊢
      obtain ⟨fuel, rfl⟩ : ∃ n, fuel = n + 1 := ⟨fuel - 1, by omega⟩
      have hx : Reads x := hvalues (k, x) List.mem_cons_self
      have hm := member?_chars (hnames (k, x) List.mem_cons_self) hx (fuel + 1) (by omega)
        (ends_membersChars members rest)
      have hrest := ih (fun m hm => hnames m (List.mem_cons_of_mem _ hm))
        (fun m hm => hvalues m (List.mem_cons_of_mem _ hm)) fuel (by omega)
      rw [members?_comma, hm, Option.bind_some, hrest, Option.bind_some]

theorem value?_number (fuel : Nat) {c : Char} (hc : c ∉ opening) (s : List Char) :
    value? (fuel + 1) (c :: s) = (number? (c :: s)).map fun (n, rest) => (num n, rest) := by
  rw [value?, skipBlanks_cons (isBlank_eq_false hc)]
  split
  case h_7 => rfl
  all_goals
    next heq =>
      obtain ⟨rfl, -⟩ := List.cons.inj heq
      exact absurd (by decide) hc

theorem value?_bracket (fuel : Nat) {c : Char} (hblank : isBlank c = false) (hc : c ≠ ']')
    (s : List Char) :
    value? (fuel + 1) ('[' :: c :: s) =
      (value? fuel (c :: s)).bind fun r =>
        (items? fuel r.2).bind fun t => some (arr (r.1 :: t.1), t.2) := by
  rw [value?, skipBlanks_cons rfl]
  simp only [skipBlanks_cons hblank]
  split
  · next heq => exact absurd (List.head_eq_of_cons_eq heq) hc
  · rfl

theorem value?_brace (fuel : Nat) (s : List Char) :
    value? (fuel + 1) ('{' :: '"' :: s) =
      (member? fuel ('"' :: s)).bind fun r =>
        (members? fuel r.2).bind fun t => some (obj (r.1 :: t.1), t.2) :=
  rfl

theorem value?_quote (fuel : Nat) (s : List Char) :
    value? (fuel + 1) ('"' :: s) = (string? s).map fun (t, rest) => (str t, rest) :=
  rfl

/-- Every plain tree is read back, by induction on the tree. -/
theorem Plain.reads {room : Nat} {j : Json} (hj : Plain room j) : Reads j := by
  induction hj with
  | null =>
      intro fuel rest hfuel _
      obtain ⟨fuel, rfl⟩ : ∃ n, fuel = n + 1 := ⟨fuel - 1, by simp [chars] at hfuel; omega⟩
      rfl
  | bool b =>
      intro fuel rest hfuel _
      obtain ⟨fuel, rfl⟩ : ∃ n, fuel = n + 1 :=
        ⟨fuel - 1, by cases b <;> simp [chars] at hfuel <;> omega⟩
      cases b with
      | false => rfl
      | true => rfl
  | num canonical _ =>
      intro fuel rest hfuel hrest
      obtain ⟨c, s, hchars, hc⟩ := exists_cons_chars canonical
      have hnumber := number?_append canonical hrest
      simp only [chars] at hfuel ⊢
      rw [hchars] at hfuel hnumber ⊢
      obtain ⟨fuel, rfl⟩ : ∃ n, fuel = n + 1 := ⟨fuel - 1, by simp at hfuel; omega⟩
      rw [List.cons_append, value?_number fuel (not_mem_opening hc), ← List.cons_append, hnumber]
      rfl
  | str s =>
      intro fuel rest hfuel _
      simp only [chars, quote, Option.getD_some, List.cons_append, List.append_assoc,
        List.nil_append, List.length_cons] at hfuel ⊢
      obtain ⟨fuel, rfl⟩ : ∃ n, fuel = n + 1 := ⟨fuel - 1, by omega⟩
      rw [value?_quote, string?_quote]
      rfl
  | @arr room items items_plain ih =>
      intro fuel rest hfuel _
      cases items with
      | nil =>
          obtain ⟨fuel, rfl⟩ : ∃ n, fuel = n + 1 := ⟨fuel - 1, by simp [chars] at hfuel; omega⟩
          rfl
      | cons x items =>
          simp only [chars, List.cons_append, List.append_assoc, List.nil_append,
            List.length_cons, List.length_append, List.length_nil] at hfuel ⊢
          obtain ⟨fuel, rfl⟩ : ∃ n, fuel = n + 1 := ⟨fuel - 1, by omega⟩
          obtain ⟨c, s, hchars, hblank, hc⟩ := (items_plain x List.mem_cons_self).exists_cons
          have hx := ih x List.mem_cons_self fuel (by omega) (ends_itemsChars items rest)
          have hitems := items?_itemsChars (fun y hy => ih y (List.mem_cons_of_mem _ hy))
            fuel (by omega) rest
          rw [hchars, List.cons_append] at hx ⊢
          rw [value?_bracket fuel hblank hc, hx, Option.bind_some, hitems, Option.bind_some]
  | @obj room members names values_plain ih =>
      intro fuel rest hfuel _
      cases members with
      | nil =>
          obtain ⟨fuel, rfl⟩ : ∃ n, fuel = n + 1 := ⟨fuel - 1, by simp [chars] at hfuel; omega⟩
          rfl
      | cons m members =>
          obtain ⟨k, x⟩ := m
          simp only [chars, List.cons_append, List.append_assoc, List.nil_append,
            List.length_cons, List.length_append, List.length_nil] at hfuel ⊢
          obtain ⟨fuel, rfl⟩ : ∃ n, fuel = n + 1 := ⟨fuel - 1, by omega⟩
          have hx : Reads x := ih (k, x) List.mem_cons_self
          have hm := member?_chars (names (k, x) List.mem_cons_self) hx fuel (by omega)
            (ends_membersChars members rest)
          have hmembers := members?_membersChars (fun m hm => names m (List.mem_cons_of_mem _ hm))
            (fun m hm => ih m (List.mem_cons_of_mem _ hm)) fuel (by omega) rest
          rw [quote, List.append_assoc, List.cons_append] at hm ⊢
          rw [value?_brace, hm, Option.bind_some, hmembers, Option.bind_some]

/-- The text of a plain tree reads as that tree. -/
theorem Plain.parse?_text {room : Nat} {j : Json} (hj : Plain room j) :
    parse? (text j) = some j := by
  have hread := hj.reads ((chars j).length + 1) (by omega) ends_nil
  rw [List.append_nil] at hread
  simp only [parse?, text, String.toList_ofList, hread]
  rfl

/-! ## Held values -/

theorem holdableItems_eq_true_iff {room : Nat} {items : List Json} :
    holdableItems room items = true ↔ ∀ x ∈ items, holdable room x = true := by
  induction items with
  | nil => simp [holdableItems]
  | cons x items ih => simp [holdableItems, ih]

theorem holdableMembers_eq_true_iff {room : Nat} {members : List (Option String × Json)} :
    holdableMembers room members = true ↔
      ∀ m ∈ members, m.1.isSome ∧ holdable room m.2 = true := by
  induction members with
  | nil => simp [holdableMembers]
  | cons m members ih => simp [holdableMembers, ih]

/-- A plain tree can be held, with its own room or more. -/
theorem Plain.holdable {room wider : Nat} {j : Json} (hj : Plain room j) (hroom : room ≤ wider) :
    holdable wider j = true := by
  induction hj generalizing wider with
  | null => cases wider <;> rfl
  | bool b => cases wider <;> rfl
  | num _ float => cases wider <;> exact float
  | str s => cases wider <;> rfl
  | arr _ ih =>
      obtain ⟨wider, rfl⟩ : ∃ n, wider = n + 1 := ⟨wider - 1, by omega⟩
      exact holdableItems_eq_true_iff.mpr fun x hx => ih x hx (by omega)
  | obj names _ ih =>
      obtain ⟨wider, rfl⟩ : ∃ n, wider = n + 1 := ⟨wider - 1, by omega⟩
      exact holdableMembers_eq_true_iff.mpr fun m hm => ⟨names m hm, ih m hm (by omega)⟩

end Json

end MarketSignals
