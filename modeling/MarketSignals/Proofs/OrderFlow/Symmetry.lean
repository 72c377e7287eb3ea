import MarketSignals.Proofs.Float.Negation
import MarketSignals.Proofs.OrderFlow.ClosedForm

/-!
# Symmetries of the order flow

Undoing a move undoes its imbalance: a side that gained what came loses it again, whichever of
its sizes was counted.  Seen from the other side of the book, with bid and ask exchanged and
the prices negated, what the one side gained is what the other did, so a move has the opposite
imbalance there.  Both hold of floats, rounding and overflow included, up to the sign of a zero.

In exact arithmetic a walk through tops of book cancels with the way back.  A state that holds
no top of book when the walk begins is left with the flow it had.  One that holds a top of book
makes a move from there to the first one of the walk, and nothing undoes that move.

## Main definitions

* `BookTop.mirrored` — a top of book from the other side.
* `Observation.IsQuote`, `Observation.quoted?` — the tops of book that a walk shows.
* `moveBetween` — the imbalance of a move, if there is one.

## Main results

* `imbalance_undone`, `imbalance_mirrored` — floats.
* `sum_imbalances_append`, `sum_imbalances_reverse` — walks, exactly.
* `Flow.accepted_append` — what is accepted of a walk.
* `Flow.cumulative_run_append` — what a walk adds to the flow of a state.
* `imbalance_symmetric` — every move, and every walk from every state.
-/

namespace MarketSignals.OrderFlow

open Rounding (value RoundsTo roundsTo_sub value_neg neg_lt_neg_iff_lt lt_iff_value
  not_lt_zero_iff abs_value_lt)
open Decimal (isFinite_neg)

section

variable {α : Type} [Scalar α]

/-! ## Accepted tops of book -/

namespace BookTop

/-- Prices that are finite and sizes that a book can show. -/
theorem validate_eq_ok_iff {top : BookTop α} :
    top.validate = .ok () ↔
      Scalar.isFinite top.bidPrice = true ∧ Scalar.isFinite top.askPrice = true ∧
        validSize top.bidSize = true ∧ validSize top.askSize = true := by
  unfold validate
  cases Scalar.isFinite top.bidPrice
  · simp
  cases Scalar.isFinite top.askPrice
  · simp
  cases validSize top.bidSize
  · simp
  cases validSize top.askSize
  · simp
  · simp

/-- A top of book seen from the other side: bid and ask are exchanged and the prices negated. -/
def mirrored (top : BookTop α) : BookTop α :=
  ⟨-top.askPrice, top.askSize, -top.bidPrice, top.bidSize⟩

end BookTop

/-! ## One side -/

variable {a b : BookTop α}

theorem bidFlow_of_up (h : a.bidPrice < b.bidPrice) : bidFlow a b = b.bidSize := if_pos h

theorem bidFlow_of_down (h : b.bidPrice < a.bidPrice) (hup : ¬a.bidPrice < b.bidPrice) :
    bidFlow a b = -a.bidSize := (if_neg hup).trans (if_pos h)

theorem bidFlow_of_still (hup : ¬a.bidPrice < b.bidPrice) (hdown : ¬b.bidPrice < a.bidPrice) :
    bidFlow a b = b.bidSize - a.bidSize := (if_neg hup).trans (if_neg hdown)

/-- The bid side of the mirrored book is the ask side, where negation turns the order of the
prices around. -/
theorem bidFlow_mirrored (h : -a.askPrice < -b.askPrice ↔ b.askPrice < a.askPrice)
    (h' : -b.askPrice < -a.askPrice ↔ a.askPrice < b.askPrice) :
    bidFlow a.mirrored b.mirrored = askFlow a b := by
  unfold bidFlow askFlow BookTop.mirrored
  simp only [h, h']

/-- And the ask side is the bid side. -/
theorem askFlow_mirrored (h : -a.bidPrice < -b.bidPrice ↔ b.bidPrice < a.bidPrice)
    (h' : -b.bidPrice < -a.bidPrice ↔ a.bidPrice < b.bidPrice) :
    askFlow a.mirrored b.mirrored = bidFlow a b := by
  unfold bidFlow askFlow BookTop.mirrored
  simp only [h, h']

end

/-! ## Floats -/

section

variable {a b : BookTop Float}

theorem validSize_iff {x : Float} : validSize x = true ↔ x.isFinite = true ∧ 0 ≤ value x := by
  unfold validSize
  rw [Bool.and_eq_true, Bool.not_eq_true', decide_eq_false_iff_not]
  exact and_congr_right fun hx => not_lt_zero_iff hx

theorem BookTop.validate_mirrored (h : a.validate = .ok ()) : a.mirrored.validate = .ok () := by
  obtain ⟨hbid, hask, hbidSize, haskSize⟩ := BookTop.validate_eq_ok_iff.mp h
  exact BookTop.validate_eq_ok_iff.mpr
    ⟨isFinite_neg hask, isFinite_neg hbid, haskSize, hbidSize⟩

variable (ha : a.validate = .ok ()) (hb : b.validate = .ok ())
include ha hb

/-- What the bid side gained is finite, and undoing the move takes it back. -/
theorem bidFlow_undone :
    (bidFlow a b).isFinite = true ∧ value (bidFlow b a) = -value (bidFlow a b) := by
  obtain ⟨hprice, -, hsize, -⟩ := BookTop.validate_eq_ok_iff.mp ha
  obtain ⟨hprice', -, hsize', -⟩ := BookTop.validate_eq_ok_iff.mp hb
  obtain ⟨hfinite, hnonneg⟩ := validSize_iff.mp hsize
  obtain ⟨hfinite', hnonneg'⟩ := validSize_iff.mp hsize'
  have hup : a.bidPrice < b.bidPrice ↔ value a.bidPrice < value b.bidPrice :=
    lt_iff_value hprice hprice'
  have hdown : b.bidPrice < a.bidPrice ↔ value b.bidPrice < value a.bidPrice :=
    lt_iff_value hprice' hprice
  rcases lt_trichotomy (value a.bidPrice) (value b.bidPrice) with h | h | h
  · rw [bidFlow_of_up (hup.mpr h), bidFlow_of_down (hup.mpr h) (mt hdown.mp h.not_gt)]
    exact ⟨hfinite', value_neg hfinite'⟩
  · have hnotUp := mt hup.mp h.not_lt
    have hnotDown := mt hdown.mp h.not_gt
    rw [bidFlow_of_still hnotUp hnotDown, bidFlow_of_still hnotDown hnotUp]
    -- neither size is negative, so the difference is no larger than one of them
    have hrange : |value b.bidSize - value a.bidSize| < Rounding.overflowPoint :=
      abs_sub_lt_of_nonneg_of_lt hnonneg' ((le_abs_self _).trans_lt (abs_value_lt hfinite'))
        hnonneg ((le_abs_self _).trans_lt (abs_value_lt hfinite))
    have hround := roundsTo_sub hfinite' hfinite
    have hround' := roundsTo_sub hfinite hfinite'
    have hgained := hround.finite_iff.mpr hrange
    have hlost := hround'.finite_iff.mpr (abs_sub_comm (value b.bidSize) _ ▸ hrange)
    refine ⟨hgained, ?_⟩
    rw [hround.value_eq hgained, hround'.value_eq hlost, ← Rounding.rounded_neg, neg_sub]
  · rw [bidFlow_of_up (hdown.mpr h), bidFlow_of_down (hdown.mpr h) (mt hup.mp h.not_gt)]
    exact ⟨isFinite_neg hfinite, by rw [value_neg hfinite, neg_neg]⟩

theorem bidFlow_mirrored_float : bidFlow a.mirrored b.mirrored = askFlow a b := by
  obtain ⟨-, hprice, -⟩ := BookTop.validate_eq_ok_iff.mp ha
  obtain ⟨-, hprice', -⟩ := BookTop.validate_eq_ok_iff.mp hb
  exact bidFlow_mirrored (neg_lt_neg_iff_lt hprice hprice') (neg_lt_neg_iff_lt hprice' hprice)

theorem askFlow_mirrored_float : askFlow a.mirrored b.mirrored = bidFlow a b := by
  obtain ⟨hprice, -⟩ := BookTop.validate_eq_ok_iff.mp ha
  obtain ⟨hprice', -⟩ := BookTop.validate_eq_ok_iff.mp hb
  exact askFlow_mirrored (neg_lt_neg_iff_lt hprice hprice') (neg_lt_neg_iff_lt hprice' hprice)

/-- So it is on the ask side, which is the bid side of the mirrored book. -/
theorem askFlow_undone :
    (askFlow a b).isFinite = true ∧ value (askFlow b a) = -value (askFlow a b) := by
  rw [← bidFlow_mirrored_float ha hb, ← bidFlow_mirrored_float hb ha]
  exact bidFlow_undone (BookTop.validate_mirrored ha) (BookTop.validate_mirrored hb)

/-- An imbalance is what the bid side gained less what the ask side did, rounded. -/
theorem roundsTo_imbalance :
    RoundsTo (imbalance a b) (value (bidFlow a b) - value (askFlow a b)) :=
  roundsTo_sub (bidFlow_undone ha hb).1 (askFlow_undone ha hb).1

/-- Undoing a move undoes its imbalance. -/
theorem imbalance_undone : (imbalance b a == -imbalance a b) = true := by
  have hback := roundsTo_imbalance hb ha
  rw [(bidFlow_undone ha hb).2, (askFlow_undone ha hb).2, neg_sub_neg] at hback
  refine (roundsTo_imbalance ha hb).beq_neg ?_
  rwa [neg_sub]

/-- The mirrored move has the opposite imbalance. -/
theorem imbalance_mirrored : (imbalance a.mirrored b.mirrored == -imbalance a b) = true := by
  have hmirrored := roundsTo_imbalance (BookTop.validate_mirrored ha) (BookTop.validate_mirrored hb)
  rw [bidFlow_mirrored_float ha hb, askFlow_mirrored_float ha hb] at hmirrored
  refine (roundsTo_imbalance ha hb).beq_neg ?_
  rwa [neg_sub]

end

/-! ## Walks in exact arithmetic -/

section

open scoped Exact

/-- Every number is finite, so only a size below zero is refused. -/
theorem BookTop.validate_of_sizes {top : BookTop ℝ} (hbid : 0 ≤ top.bidSize)
    (hask : 0 ≤ top.askSize) : top.validate = .ok () := by
  have hvalid : ∀ size : ℝ, 0 ≤ size → validSize size = true := by
    intro size hsize
    unfold validSize
    rw [Bool.and_eq_true, Bool.not_eq_true', decide_eq_false_iff_not, Exact.zero_eq]
    exact ⟨rfl, not_lt.mpr hsize⟩
  exact BookTop.validate_eq_ok_iff.mpr ⟨rfl, rfl, hvalid _ hbid, hvalid _ hask⟩

theorem bidFlow_neg (a b : BookTop ℝ) : bidFlow b a = -bidFlow a b := by
  rcases lt_trichotomy a.bidPrice b.bidPrice with h | h | h
  · rw [bidFlow_of_up h, bidFlow_of_down h h.not_gt]
  · rw [bidFlow_of_still h.not_lt h.not_gt, bidFlow_of_still h.not_gt h.not_lt, neg_sub]
  · rw [bidFlow_of_up h, bidFlow_of_down h h.not_gt, neg_neg]

theorem askFlow_neg (a b : BookTop ℝ) : askFlow b a = -askFlow a b := by
  have hmirrored : ∀ a b : BookTop ℝ, bidFlow a.mirrored b.mirrored = askFlow a b :=
    fun a b => bidFlow_mirrored neg_lt_neg_iff neg_lt_neg_iff
  rw [← hmirrored, ← hmirrored, bidFlow_neg]

/-- Undoing a move undoes its imbalance. -/
theorem imbalance_neg (a b : BookTop ℝ) : imbalance b a = -imbalance a b := by
  unfold imbalance
  rw [bidFlow_neg, askFlow_neg, neg_sub_neg, neg_sub]

/-- The imbalance of the move from one top of book to another, if there are both. -/
noncomputable def moveBetween : Option (BookTop ℝ) → Option (BookTop ℝ) → ℝ
  | some a, some b => imbalance a b
  | _, _ => 0

theorem moveBetween_none (last : Option (BookTop ℝ)) : moveBetween last none = 0 := by
  cases last <;> rfl

theorem moveBetween_neg (x y : Option (BookTop ℝ)) : moveBetween y x = -moveBetween x y := by
  cases x with
  | none =>
      rw [moveBetween_none]
      exact neg_zero.symm
  | some a =>
      cases y with
      | none => exact neg_zero.symm
      | some b => exact imbalance_neg a b

theorem moveBetween_self (x : Option (BookTop ℝ)) : moveBetween x x = 0 := by
  have h := moveBetween_neg x x
  linarith

variable (xs ys : List (BookTop ℝ))

theorem sum_imbalances_cons (top : BookTop ℝ) (tops : List (BookTop ℝ)) :
    (imbalances (top :: tops)).sum =
      moveBetween (some top) tops.head? + (imbalances tops).sum := by
  cases tops with
  | nil => exact (add_zero _).symm
  | cons next tops => exact List.sum_cons

/-- Two walks in turn: the move between them comes on top. -/
theorem sum_imbalances_append :
    (imbalances (xs ++ ys)).sum =
      (imbalances xs).sum + moveBetween xs.getLast? ys.head? + (imbalances ys).sum := by
  induction xs with
  | nil =>
      show (imbalances ys).sum = 0 + 0 + (imbalances ys).sum
      ring
  | cons top rest ih =>
      rw [List.cons_append, sum_imbalances_cons, sum_imbalances_cons, ih]
      cases rest with
      | nil =>
          show moveBetween (some top) ys.head? + (0 + 0 + (imbalances ys).sum) =
            0 + 0 + moveBetween (some top) ys.head? + (imbalances ys).sum
          ring
      | cons next rest =>
          rw [List.getLast?_cons_cons, List.cons_append, List.head?_cons, List.head?_cons]
          ring

/-- The way back. -/
theorem sum_imbalances_reverse : (imbalances xs.reverse).sum = -(imbalances xs).sum := by
  induction xs with
  | nil => exact neg_zero.symm
  | cons top rest ih =>
      have hfirst : (imbalances [top]).sum = 0 := rfl
      rw [List.reverse_cons, sum_imbalances_append, ih, List.getLast?_reverse, List.head?_cons,
        hfirst, sum_imbalances_cons, moveBetween_neg (some top)]
      ring

/-- A walk cancels with the way back. -/
theorem sum_imbalances_append_reverse : (imbalances (xs ++ xs.reverse)).sum = 0 := by
  rw [sum_imbalances_append, sum_imbalances_reverse, List.head?_reverse, moveBetween_self]
  ring

/-! ## What is accepted of a walk -/

namespace Observation

/-- A top of book that is shown with its prices, and with a trade or without. -/
def IsQuote {α : Type} : Observation α → Prop
  | book _ | event .. => True
  | _ => False

/-- The top of book that such an observation shows, if it passes the checks. -/
def quoted? {α : Type} [Scalar α] : Observation α → Option (BookTop α)
  | book top => if top.validate.isOk then some top else none
  | event top trade => if top.validate.isOk && trade.all validSize then some top else none
  | _ => none

end Observation

namespace Flow

variable {policy : ResetPolicy ℝ} {f : Flow ℝ} {o : Observation ℝ}

/-- Nothing is out of range. -/
theorem exists_fold_eq_ok (policy : ResetPolicy ℝ) (f : Flow ℝ) (top : BookTop ℝ) (traded : ℝ) :
    ∃ f', f.fold policy top traded = .ok f' := by
  unfold fold
  cases f.last with
  | none => exact ⟨_, rfl⟩
  | some previous => exact ⟨_, rfl⟩

/-- A quote is accepted in every state, or refused in every state. -/
theorem observe_quote (policy : ResetPolicy ℝ) (f : Flow ℝ) (ho : o.IsQuote) :
    (∃ top, o.quoted? = some top ∧ (∀ last, o.shown last = some top) ∧
        ∃ f', f.observe policy o = .ok f') ∨
      o.quoted? = none ∧ ∃ fault, f.observe policy o = .error fault := by
  cases o with
  | book top =>
      unfold Observation.quoted? observe observeBook
      dsimp only
      cases top.validate with
      | error fault => exact .inr ⟨rfl, .book fault, rfl⟩
      | ok => exact .inl ⟨top, rfl, fun _ => rfl, exists_fold_eq_ok policy f top _⟩
  | event top trade =>
      unfold Observation.quoted? observe observeTrade
      dsimp only
      cases top.validate with
      | error fault => exact .inr ⟨rfl, .book fault, rfl⟩
      | ok =>
          cases trade with
          | none => exact .inl ⟨top, rfl, fun _ => rfl, exists_fold_eq_ok policy f top _⟩
          | some size =>
              rw [Option.all_some]
              dsimp only [Except.mapError, bind, Except.bind]
              cases validSize size with
              | false => exact .inr ⟨rfl, .tradeSize size, rfl⟩
              | true => exact .inl ⟨top, rfl, fun _ => rfl, exists_fold_eq_ok policy f top size⟩
  | sizes bidSize askSize => exact absurd ho id
  | reset => exact absurd ho id

/-- One more quote. -/
theorem accepted_concat (policy : ResetPolicy ℝ) (observations : List (Observation ℝ))
    (ho : o.IsQuote) :
    accepted policy (observations ++ [o]) = accepted policy observations ++ o.quoted?.toList := by
  unfold accepted
  rw [List.foldl_concat]
  generalize observations.foldl (note policy) (.start, []) = s
  unfold note
  obtain ⟨top, hquoted, hshown, f', haccepted⟩ | ⟨hquoted, fault, hrefused⟩ :=
    observe_quote policy s.1 ho
  · rw [haccepted, hquoted]
    show o.noted s.2 = s.2 ++ [top]
    unfold Observation.noted
    rw [hshown]
  · rw [hrefused, hquoted]
    exact (List.append_nil _).symm

/-- The quotes that pass the checks are accepted one after the other. -/
theorem accepted_append (policy : ResetPolicy ℝ) (observations : List (Observation ℝ))
    {walk : List (Observation ℝ)} (hwalk : ∀ o ∈ walk, o.IsQuote) :
    accepted policy (observations ++ walk) =
      accepted policy observations ++ walk.filterMap Observation.quoted? := by
  induction walk using List.reverseRecOn with
  | nil => rw [List.append_nil, List.filterMap_nil, List.append_nil]
  | append_singleton walk o ih =>
      have hrest := ih fun o' ho' => hwalk o' (List.mem_append_left _ ho')
      have hlast : [o].filterMap Observation.quoted? = o.quoted?.toList := by
        cases h : o.quoted? <;> simp [h]
      rw [← List.append_assoc, accepted_concat policy _ (hwalk o (by simp)), hrest,
        List.filterMap_append, hlast, List.append_assoc]

/-- The first top of book seeds the state. -/
theorem run_book {top : BookTop ℝ} (h : top.validate = .ok ()) :
    (run .manual [.book top]).last = some top ∧ (run .manual [.book top]).cumulative = .zero := by
  unfold run
  rw [List.foldl_cons, List.foldl_nil]
  unfold follow observe observeBook
  dsimp only
  rw [h]
  exact ⟨rfl, rfl⟩

/-- What a walk adds: the move from the top of book that the state holds, and its own moves. -/
theorem cumulative_run_append (before : List (Observation ℝ)) {walk : List (Observation ℝ)}
    (hwalk : ∀ o ∈ walk, o.IsQuote) :
    (run .manual (before ++ walk)).cumulative.value =
      (run .manual before).cumulative.value +
          moveBetween (run .manual before).last (walk.filterMap Observation.quoted?).head? +
        (imbalances (walk.filterMap Observation.quoted?)).sum := by
  have hmanual : (ResetPolicy.manual : ResetPolicy ℝ).Proper := fun n h => by cases h
  have hbefore := told_run hmanual before
  rw [(told_run hmanual _).cumulative, hbefore.cumulative, hbefore.last, value_total_manual,
    value_total_manual, accepted_append .manual before hwalk, sum_imbalances_append]

/-- A walk and the way back leave the move to its first top of book. -/
theorem cumulative_run_append_reverse (before : List (Observation ℝ))
    {walk : List (Observation ℝ)} (hwalk : ∀ o ∈ walk, o.IsQuote) :
    (run .manual (before ++ (walk ++ walk.reverse))).cumulative.value =
      (run .manual before).cumulative.value +
        moveBetween (run .manual before).last (walk.filterMap Observation.quoted?).head? := by
  have hboth : ∀ o ∈ walk ++ walk.reverse, o.IsQuote := fun o ho =>
    hwalk o ((List.mem_append.mp ho).elim id List.mem_reverse.mp)
  have hfirst : ∀ tops : List (BookTop ℝ), (tops ++ tops.reverse).head? = tops.head? := by
    intro tops
    cases tops <;> rfl
  rw [cumulative_run_append before hboth, List.filterMap_append, List.filterMap_reverse,
    sum_imbalances_append_reverse, hfirst, add_zero]

end Flow

/-! ## Every move and every walk -/

/-- Every move between tops of book that pass the checks has the opposite imbalance when it is
undone, and when it is seen from the other side.  In exact arithmetic a walk and the way back
change the cumulative flow of a state by the move from the top of book that it holds to the
first one accepted of the walk.  Where it holds none, or holds that one, they change nothing. -/
theorem imbalance_symmetric :
    (∀ a b : BookTop Float, a.validate = .ok () → b.validate = .ok () →
      (imbalance b a == -imbalance a b) = true ∧
        a.mirrored.validate = .ok () ∧ b.mirrored.validate = .ok () ∧
        (imbalance a.mirrored b.mirrored == -imbalance a b) = true) ∧
    ∀ before walk : List (Observation ℝ), (∀ o ∈ walk, o.IsQuote) →
      let first := (walk.filterMap Observation.quoted?).head?
      let f := Flow.run .manual before
      let f' := Flow.run .manual (before ++ (walk ++ walk.reverse))
      f'.cumulative.value = f.cumulative.value + moveBetween f.last first ∧
        (f.last = none ∨ f.last = first → f'.cumulative.value = f.cumulative.value) := by
  refine ⟨fun a b ha hb => ⟨imbalance_undone ha hb, BookTop.validate_mirrored ha,
    BookTop.validate_mirrored hb, imbalance_mirrored ha hb⟩, ?_⟩
  intro before walk hwalk first f f'
  have hrun := Flow.cumulative_run_append_reverse before hwalk
  refine ⟨hrun, fun hheld => hrun.trans ?_⟩
  have hstill : moveBetween f.last first = 0 := by
    rcases hheld with hnone | hfirst
    · rw [hnone]
      rfl
    · rw [hfirst, moveBetween_self]
  exact add_eq_left.mpr hstill

/-- A better bid and a worse ask, and a walk through sizes that are refused, shown to a new
state. -/
theorem imbalance_symmetric_refused :
    let a : BookTop Float := ⟨100, 10, 101, 10⟩
    let b : BookTop Float := ⟨101, 5, 103, 7⟩
    let walk : List (Observation ℝ) :=
      [.book ⟨100, -1, 101, 10⟩, .book ⟨100, 15, 101, 10⟩, .event ⟨101, 5, 103, 7⟩ (some 2)]
    a.validate = .ok () ∧ b.validate = .ok () ∧ imbalance a b = 15 ∧
      (imbalance b a == -imbalance a b) = true ∧
      (imbalance a.mirrored b.mirrored == -imbalance a b) = true ∧
      (∀ o ∈ walk, o.IsQuote) ∧ (Flow.run .manual ([] : List (Observation ℝ))).last = none ∧
      (Flow.run .manual ([] ++ (walk ++ walk.reverse))).cumulative.value = 0 := by
  intro a b walk
  have ha : a.validate = .ok () := BookTop.validate_eq_ok_iff.mpr (by decide +kernel)
  have hb : b.validate = .ok () := BookTop.validate_eq_ok_iff.mpr (by decide +kernel)
  have hwalk : ∀ o ∈ walk, o.IsQuote := by simp [walk, Observation.IsQuote]
  obtain ⟨hundone, -, -, hmirrored⟩ := imbalance_symmetric.1 a b ha hb
  have hback := (imbalance_symmetric.2 [] walk hwalk).2 (.inl rfl)
  exact ⟨ha, hb, by decide +kernel, hundone, hmirrored, hwalk, rfl,
    hback.trans CompensatedSum.value_zero⟩

/-- The way back does not return to the top of book that was held before. -/
theorem held_top_left_behind :
    let held : BookTop ℝ := ⟨100, 10, 101, 10⟩
    let top : BookTop ℝ := ⟨100, 15, 101, 10⟩
    let walk : List (Observation ℝ) := [.book top]
    held.validate = .ok () ∧ top.validate = .ok () ∧
      (Flow.run .manual [.book held]).cumulative.value = 0 ∧
      (Flow.run .manual ([.book held] ++ (walk ++ walk.reverse))).cumulative.value = 5 := by
  intro held top walk
  have hheld : held.validate = .ok () :=
    BookTop.validate_of_sizes (by norm_num [held]) (by norm_num [held])
  have htop : top.validate = .ok () :=
    BookTop.validate_of_sizes (by norm_num [top]) (by norm_num [top])
  have hwalk : ∀ o ∈ walk, o.IsQuote := by simp [walk, Observation.IsQuote]
  obtain ⟨hlast, hzero⟩ := Flow.run_book hheld
  have hbefore : (Flow.run .manual [.book held]).cumulative.value = 0 := by
    rw [hzero, CompensatedSum.value_zero]
  have hfirst : (walk.filterMap Observation.quoted?).head? = some top := by
    have hquoted : (Observation.book top).quoted? = some top := by
      show (if top.validate.isOk then some top else none) = some top
      rw [htop]
      rfl
    rw [List.filterMap_cons_some hquoted]
    rfl
  have hmove : moveBetween (some held) (some top) = 5 := by
    show imbalance held top = 5
    have hprices : held.bidPrice = top.bidPrice ∧ held.askPrice = top.askPrice := ⟨rfl, rfl⟩
    rw [imbalance_of_prices_eq hprices.1 hprices.2]
    norm_num [held, top]
  refine ⟨hheld, htop, hbefore, ?_⟩
  rw [Flow.cumulative_run_append_reverse _ hwalk, hbefore, hlast, hfirst, hmove, zero_add]

end

end MarketSignals.OrderFlow
