import Mathlib.Algebra.BigOperators.Group.List.Basic
import Mathlib.Tactic.Ring
import MarketSignals.Proofs.Exact
import MarketSignals.Proofs.OrderFlow.Finite

/-!
# What the cumulative flow is made of

The cumulative flow of a state is told by the tops of book that were accepted since the last
reset: the first one seeds the state, and every later one adds the imbalance of the move that
led to it.  A policy decides how the imbalances are put together.  Refused observations leave
no trace.

In exact arithmetic the compensation stays zero and the flow is a sum.  Where the prices stay
the same the sum is what the bid side gained less what the ask side gained from the first top
to the last.

## Main definitions

* `Observation`, `Flow.run` — what a state is shown, and what a list of it leaves.
* `Flow.accepted` — the tops of book accepted since the last reset.
* `imbalances` — the imbalances of their moves.
* `ResetPolicy.total` — how a policy puts imbalances together.
* `Flow.OnlySizes` — nothing but sizes since the last reset.

## Main results

* `Flow.Told.fold` — one more top of book.
* `Flow.told_run` — every run, over any numbers.
* `value_total_manual`, `value_total_decay`, `value_total_periodic` — exact arithmetic.
* `sum_imbalances` — unchanged prices.
* `cumulative_told` — every run of an estimator, and its exact reading.
-/

namespace MarketSignals.OrderFlow

open Rounding (value)

section

variable {α : Type}

/-! ## Observations -/

/-- What a state is shown. -/
inductive Observation (α : Type) where
  | book (top : BookTop α)
  | sizes (bidSize askSize : α)
  | event (top : BookTop α) (trade : Option α)
  | reset

/-- Sizes at unchanged prices, or a reset. -/
def Observation.KeepsPrices : Observation α → Prop
  | sizes .. | reset => True
  | _ => False

variable [Scalar α]

/-- The top of book that an observation shows, given the last one.  Sizes alone are shown at
the last prices, which are zero before any. -/
def Observation.shown (last : Option (BookTop α)) : Observation α → Option (BookTop α)
  | book top => some top
  | sizes bidSize askSize =>
      match last with
      | some top => some { top with bidSize, askSize }
      | none => some ⟨0, bidSize, 0, askSize⟩
  | event top _ => some top
  | reset => none

/-- The tops of book since the last reset, once an observation is accepted as well. -/
def Observation.noted (tops : List (BookTop α)) (o : Observation α) : List (BookTop α) :=
  match o.shown tops.getLast? with
  | some top => tops ++ [top]
  | none => []

namespace Flow

variable {policy : ResetPolicy α} {f f' : Flow α}

/-- The state that an observation makes, unless it is refused. -/
def observe (policy : ResetPolicy α) (f : Flow α) : Observation α → Except (FlowFault α) (Flow α)
  | .book top => f.observeBook policy top
  | .sizes bidSize askSize => f.observeSizes policy bidSize askSize
  | .event top trade => f.observeTrade policy top trade
  | .reset => .ok .start

/-- The state after an observation. -/
def follow (policy : ResetPolicy α) (f : Flow α) (o : Observation α) : Flow α :=
  match f.observe policy o with
  | .ok f' => f'
  | .error _ => f

/-- The state after a list of observations. -/
def run (policy : ResetPolicy α) (observations : List (Observation α)) : Flow α :=
  observations.foldl (follow policy) .start

/-- A state and the tops of book since the last reset, after an observation. -/
def note (policy : ResetPolicy α) (s : Flow α × List (BookTop α)) (o : Observation α) :
    Flow α × List (BookTop α) :=
  match s.1.observe policy o with
  | .ok f => (f, o.noted s.2)
  | .error _ => s

/-- The tops of book accepted since the last reset, the first one first. -/
def accepted (policy : ResetPolicy α) (observations : List (Observation α)) : List (BookTop α) :=
  (observations.foldl (note policy) (.start, [])).2

/-- An accepted observation that shows a top of book folds it in, and a reset starts anew. -/
theorem observe_eq_ok {o : Observation α} (h : f.observe policy o = .ok f') :
    (o.shown f.last = none ∧ f' = .start) ∨
      ∃ top traded, o.shown f.last = some top ∧ f.fold policy top traded = .ok f' := by
  cases o with
  | book top =>
      obtain ⟨-, -, hfold⟩ := bind_eq_ok_iff.mp h
      exact .inr ⟨top, 0, rfl, hfold⟩
  | sizes bidSize askSize =>
      unfold observe observeSizes at h
      cases hlast : f.last with
      | none =>
          rw [hlast] at h
          obtain ⟨-, -, hfold⟩ := bind_eq_ok_iff.mp h
          exact .inr ⟨_, 0, rfl, hfold⟩
      | some top =>
          rw [hlast] at h
          obtain ⟨-, -, hfold⟩ := bind_eq_ok_iff.mp h
          exact .inr ⟨_, 0, rfl, hfold⟩
  | event top trade =>
      obtain ⟨-, -, h⟩ := bind_eq_ok_iff.mp h
      cases trade with
      | none => exact .inr ⟨top, 0, rfl, h⟩
      | some size =>
          dsimp only at h
          split at h
          · exact .inr ⟨top, size, rfl, h⟩
          · cases h
  | reset =>
      cases h
      exact .inl ⟨rfl, rfl⟩

/-- What a top of book leaves behind: it seeds the state, or adds the imbalance of a move to
what the policy prepared. -/
theorem fold_eq_ok {top : BookTop α} {traded : α} (h : f.fold policy top traded = .ok f') :
    f'.last = some top ∧
      ((f.last = none ∧ f'.cumulative = f.cumulative ∧ f'.lastStep = 0 ∧
          f'.stepsSinceReset = f.stepsSinceReset) ∨
        ∃ previous, f.last = some previous ∧
          f'.cumulative = (f.prepared policy).1.add (imbalance previous top) ∧
          f'.lastStep = imbalance previous top ∧
          f'.stepsSinceReset = (f.prepared policy).2 + 1) := by
  unfold fold at h
  dsimp only at h
  split at h
  · cases h
  split at h
  next hlast =>
    cases h
    exact ⟨rfl, .inl ⟨hlast, rfl, rfl, rfl⟩⟩
  next previous hlast =>
    split at h
    · cases h
    split at h
    · cases h
    cases h
    exact ⟨rfl, .inr ⟨previous, hlast, rfl, rfl, rfl⟩⟩

end Flow

/-! ## Imbalances -/

/-- The imbalances of the moves from each top of book to the next. -/
def imbalances (tops : List (BookTop α)) : List α := List.zipWith imbalance tops tops.tail

theorem imbalances_append_none {tops : List (BookTop α)} (h : tops.getLast? = none)
    (top : BookTop α) : imbalances (tops ++ [top]) = imbalances tops := by
  rw [List.getLast?_eq_none_iff.mp h]
  rfl

/-- One more top of book makes one more move. -/
theorem imbalances_append {tops : List (BookTop α)} {last : BookTop α}
    (h : tops.getLast? = some last) (top : BookTop α) :
    imbalances (tops ++ [top]) = imbalances tops ++ [imbalance last top] := by
  induction tops with
  | nil => cases h
  | cons first rest ih =>
      cases rest with
      | nil =>
          cases h
          rfl
      | cons second rest =>
          rw [List.getLast?_cons_cons] at h
          exact congrArg (imbalance first second :: ·) (ih h)

/-! ## Putting steps together -/

/-- The steps of the current period: a full period is over before the next step. -/
def currentPeriod {β : Type} (everyEvents : Nat) (steps : List β) : List β :=
  steps.drop (everyEvents * ((steps.length - 1) / everyEvents))

theorem currentPeriod_nil {β : Type} (n : Nat) : currentPeriod n ([] : List β) = [] :=
  List.drop_nil

/-- A full period is over before the next step, and any other goes on. -/
theorem currentPeriod_append {β : Type} {n : Nat} (hn : 0 < n) (steps : List β) (step : β) :
    currentPeriod n (steps ++ [step]) =
      if n ≤ (currentPeriod n steps).length then [step] else currentPeriod n steps ++ [step] := by
  unfold currentPeriod
  rw [List.length_append, List.length_singleton, Nat.add_sub_cancel, List.length_drop]
  rcases Nat.eq_zero_or_pos steps.length with hempty | hpos
  · rw [List.length_eq_zero_iff.mp hempty]
    simp [hn.ne']
  -- the place of the last step in its period
  have hplace := Nat.mod_lt (steps.length - 1) hn
  have hsplit := Nat.div_add_mod (steps.length - 1) n
  obtain ⟨q, hq⟩ : ∃ q, (steps.length - 1) / n = q := ⟨_, rfl⟩
  rw [hq] at hsplit ⊢
  split
  next hfull =>
    have hnext : steps.length = n * (q + 1) := by
      rw [Nat.mul_succ]
      omega
    rw [hnext, Nat.mul_div_cancel_left _ hn, ← hnext]
    exact List.drop_left
  next hopen =>
    have hsame : steps.length / n = q := by
      rw [Nat.div_eq_iff hn, Nat.mul_comm]
      omega
    rw [hsame]
    exact List.drop_append_of_le_length (by omega)

/-- How a policy puts steps together. -/
def ResetPolicy.total : ResetPolicy α → List α → CompensatedSum α
  | manual, steps => steps.foldl .add .zero
  | decay factor, steps => steps.foldl (fun sum step => (sum.scale factor).add step) .zero
  | periodic everyEvents, steps => (currentPeriod everyEvents steps).foldl .add .zero

omit [Scalar α] in
/-- A period has a step. -/
def ResetPolicy.Proper (policy : ResetPolicy α) : Prop :=
  ∀ everyEvents, policy = .periodic everyEvents → 0 < everyEvents

/-! ## Runs -/

namespace Flow

variable {policy : ResetPolicy α} {f f' : Flow α} {tops : List (BookTop α)}

/-- A state is told by the tops of book since the last reset.  The counter is the length of
the current period, which decides when a policy restarts. -/
structure Told (policy : ResetPolicy α) (f : Flow α) (tops : List (BookTop α)) : Prop where
  last : f.last = tops.getLast?
  cumulative : f.cumulative = policy.total (imbalances tops)
  lastStep : f.lastStep = (imbalances tops).getLastD 0
  counted : ∀ everyEvents, policy = .periodic everyEvents →
    f.stepsSinceReset = (currentPeriod everyEvents (imbalances tops)).length

theorem told_start (policy : ResetPolicy α) : Told policy .start [] where
  last := rfl
  cumulative := by
    cases policy with
    | periodic n =>
        show CompensatedSum.zero = (currentPeriod n []).foldl CompensatedSum.add .zero
        rw [currentPeriod_nil]
        rfl
    | _ => rfl
  lastStep := rfl
  counted n _ := (congrArg List.length (currentPeriod_nil n)).symm

/-- What a policy prepares is ready for the next step. -/
theorem Told.prepared (ht : Told policy f tops) (hp : policy.Proper) (step : α) :
    (f.prepared policy).1.add step = policy.total (imbalances tops ++ [step]) ∧
      ∀ n, policy = .periodic n →
        (f.prepared policy).2 + 1 = (currentPeriod n (imbalances tops ++ [step])).length := by
  have hcumulative := ht.cumulative
  cases policy with
  | manual =>
      refine ⟨?_, fun n h => by cases h⟩
      show f.cumulative.add step = (imbalances tops ++ [step]).foldl .add .zero
      rw [List.foldl_concat, hcumulative]
      rfl
  | decay factor =>
      refine ⟨?_, fun n h => by cases h⟩
      show (f.cumulative.scale factor).add step = (imbalances tops ++ [step]).foldl _ .zero
      rw [List.foldl_concat, hcumulative]
      rfl
  | periodic everyEvents =>
      have hcounted := ht.counted _ rfl
      have happend := currentPeriod_append (hp _ rfl) (imbalances tops) step
      have htotal : f.cumulative =
          (currentPeriod everyEvents (imbalances tops)).foldl .add .zero := hcumulative
      rw [← hcounted] at happend
      unfold Flow.prepared ResetPolicy.total
      dsimp only
      split
      next hfull =>
        rw [if_pos hfull] at happend
        refine ⟨by rw [happend]; rfl, fun n h => ?_⟩
        cases h
        rw [happend]
        rfl
      next hopen =>
        rw [if_neg hopen] at happend
        refine ⟨by rw [happend, List.foldl_concat, htotal], fun n h => ?_⟩
        cases h
        rw [happend, List.length_append, ← hcounted]
        rfl

/-- One more top of book. -/
theorem Told.fold (ht : Told policy f tops) (hp : policy.Proper) {top : BookTop α} {traded : α}
    (h : f.fold policy top traded = .ok f') : Told policy f' (tops ++ [top]) := by
  have hlast : (tops ++ [top]).getLast? = some top := List.getLast?_concat
  obtain ⟨htop, ⟨hnone, hcumulative, hstep, hsteps⟩ | ⟨previous, hsome, hcumulative, hstep,
    hsteps⟩⟩ := fold_eq_ok h
  · rw [ht.last] at hnone
    have hsame := imbalances_append_none hnone top
    refine ⟨htop.trans hlast.symm, ?_, ?_, fun n hn => ?_⟩
    · rw [hcumulative, hsame, ht.cumulative]
    · rw [hstep, hsame, List.getLast?_eq_none_iff.mp hnone]
      rfl
    · rw [hsteps, hsame, ht.counted n hn]
  · rw [ht.last] at hsome
    have hmore := imbalances_append hsome top
    obtain ⟨htotal, hcounted⟩ := ht.prepared hp (imbalance previous top)
    refine ⟨htop.trans hlast.symm, ?_, ?_, fun n hn => ?_⟩
    · rw [hcumulative, hmore, htotal]
    · rw [hstep, hmore, List.getLastD_concat]
    · rw [hsteps, hmore, hcounted n hn]

/-- One more observation. -/
theorem Told.observe (ht : Told policy f tops) (hp : policy.Proper) {o : Observation α}
    (h : f.observe policy o = .ok f') : Told policy f' (o.noted tops) := by
  rcases observe_eq_ok h with ⟨hshown, rfl⟩ | ⟨top, traded, hshown, hfold⟩
  · rw [ht.last] at hshown
    unfold Observation.noted
    rw [hshown]
    exact told_start policy
  · rw [ht.last] at hshown
    unfold Observation.noted
    rw [hshown]
    exact ht.fold hp hfold

/-- The state that the tops of book are noted beside is the state of the run. -/
theorem fst_foldl_note (policy : ResetPolicy α) (observations : List (Observation α)) :
    (observations.foldl (note policy) (.start, [])).1 = run policy observations := by
  unfold run
  induction observations using List.reverseRecOn with
  | nil => rfl
  | append_singleton observations o ih =>
      rw [List.foldl_concat, List.foldl_concat, ← ih]
      generalize observations.foldl (note policy) (.start, []) = s
      unfold note follow
      cases s.1.observe policy o <;> rfl

theorem Told.note {s : Flow α × List (BookTop α)} (ht : Told policy s.1 s.2) (hp : policy.Proper)
    (o : Observation α) : Told policy (note policy s o).1 (note policy s o).2 := by
  unfold Flow.note
  cases hobserve : s.1.observe policy o with
  | error fault => exact ht
  | ok f' => exact ht.observe hp hobserve

/-- Every run is told by the tops of book accepted since the last reset. -/
theorem told_run (hp : policy.Proper) (observations : List (Observation α)) :
    Told policy (run policy observations) (accepted policy observations) := by
  rw [← fst_foldl_note]
  unfold accepted
  induction observations using List.reverseRecOn with
  | nil => exact told_start policy
  | append_singleton observations o ih =>
      rw [List.foldl_concat]
      exact ih.note hp o

/-! ### Sizes alone -/

/-- Since the last reset only sizes were shown, apart from what was refused. -/
def OnlySizes (policy : ResetPolicy α) (observations : List (Observation α)) : Prop :=
  ∀ before o after, observations = before ++ o :: after → .reset ∉ after →
    o.KeepsPrices ∨ ∃ fault, (run policy before).observe policy o = .error fault

theorem OnlySizes.of_forall {observations : List (Observation α)}
    (h : ∀ o ∈ observations, o.KeepsPrices) : OnlySizes policy observations := by
  rintro before o after rfl -
  exact .inl (h o (List.mem_append_right _ List.mem_cons_self))

theorem OnlySizes.of_concat {observations : List (Observation α)} {o : Observation α}
    (h : OnlySizes policy (observations ++ [o])) (ho : o ≠ .reset) :
    OnlySizes policy observations := by
  rintro before o' after rfl hafter
  refine h before o' (after ++ [o]) (by simp) fun hmem => ?_
  rcases List.mem_append.mp hmem with hmem | hmem
  · exact hafter hmem
  · exact ho (List.mem_singleton.mp hmem).symm

/-- Sizes at prices of zero make a top of book at prices of zero. -/
theorem prices_noted {o : Observation α} (hkeeps : o.KeepsPrices) {tops : List (BookTop α)}
    (h : o ≠ .reset → ∀ top ∈ tops, top.bidPrice = 0 ∧ top.askPrice = 0) :
    ∀ top ∈ o.noted tops, top.bidPrice = 0 ∧ top.askPrice = 0 := by
  cases o with
  | book top => exact hkeeps.elim
  | event top trade => exact hkeeps.elim
  | reset => exact fun top htop => absurd htop List.not_mem_nil
  | sizes bidSize askSize =>
      have hbefore := h (by simp)
      unfold Observation.noted Observation.shown
      cases hlast : tops.getLast? with
      | none =>
          intro top htop
          rcases List.mem_append.mp htop with hold | hnew
          · exact hbefore top hold
          · obtain rfl := List.mem_singleton.mp hnew
            exact ⟨rfl, rfl⟩
      | some last =>
          intro top htop
          rcases List.mem_append.mp htop with hold | hnew
          · exact hbefore top hold
          · obtain rfl := List.mem_singleton.mp hnew
            exact hbefore last (List.mem_of_getLast? hlast)

/-- Sizes alone keep the prices at zero. -/
theorem OnlySizes.prices {observations : List (Observation α)}
    (h : OnlySizes policy observations) :
    ∀ top ∈ accepted policy observations, top.bidPrice = 0 ∧ top.askPrice = 0 := by
  induction observations using List.reverseRecOn with
  | nil => exact fun top htop => absurd htop List.not_mem_nil
  | append_singleton observations o ih =>
      have hbefore := fun ho => ih (h.of_concat ho)
      have hstate := fst_foldl_note policy observations
      unfold accepted at hbefore ⊢
      rw [List.foldl_concat]
      generalize observations.foldl (note policy) (.start, []) = s at hbefore hstate ⊢
      unfold note
      cases hobserve : s.1.observe policy o with
      | error fault =>
          refine hbefore ?_
          rintro rfl
          cases hobserve
      | ok f =>
          refine prices_noted ?_ hbefore
          refine (h observations o [] rfl List.not_mem_nil).resolve_right ?_
          rintro ⟨fault, hrefused⟩
          rw [← hstate, hobserve] at hrefused
          cases hrefused

/-- So they stay what they were at the first top of book. -/
theorem OnlySizes.prices_eq {observations : List (Observation α)} {first : BookTop α}
    (h : OnlySizes policy observations) (hfirst : (accepted policy observations).head? = some first) :
    ∀ top ∈ accepted policy observations,
      top.bidPrice = first.bidPrice ∧ top.askPrice = first.askPrice := by
  intro top htop
  obtain ⟨hbid, hask⟩ := h.prices first (List.mem_of_head? hfirst)
  rw [hbid, hask]
  exact h.prices top htop

end Flow

end

/-! ## Exact arithmetic -/

section

open scoped Exact

namespace CompensatedSum

variable (s : CompensatedSum ℝ) (steps : List ℝ)

theorem value_zero : (zero : CompensatedSum ℝ).value = 0 := by
  show ((0 : ℕ) : ℝ) + ((0 : ℕ) : ℝ) = 0
  simp

/-- Nothing is lost, so nothing is compensated for. -/
theorem value_add (x : ℝ) : (s.add x).value = s.value + x := by
  have hlost : (if Scalar.abs x ≤ Scalar.abs s.sum then (s.sum - (s.sum + x)) + x
      else (x - (s.sum + x)) + s.sum) = 0 := by
    split <;> ring
  show s.sum + x + (s.compensation + _) = s.sum + s.compensation + x
  rw [hlost]
  ring

theorem value_scale (factor : ℝ) : (s.scale factor).value = s.value * factor := by
  show s.sum * factor + s.compensation * factor = (s.sum + s.compensation) * factor
  ring

theorem value_foldl_add : (steps.foldl add s).value = s.value + steps.sum := by
  induction steps generalizing s with
  | nil => rw [List.foldl_nil, List.sum_nil, add_zero]
  | cons step steps ih => rw [List.foldl_cons, ih, value_add, List.sum_cons, add_assoc]

/-- A step is scaled once for every step after it. -/
theorem value_foldl_decay (factor : ℝ) :
    (steps.foldl (fun sum step => (sum.scale factor).add step) s).value =
      s.value * factor ^ steps.length +
        (steps.mapIdx fun j step => factor ^ (steps.length - 1 - j) * step).sum := by
  induction steps generalizing s with
  | nil => simp
  | cons step steps ih =>
      have hshift : (fun (j : ℕ) (x : ℝ) => factor ^ ((step :: steps).length - 1 - (j + 1)) * x) =
          fun j x => factor ^ (steps.length - 1 - j) * x := by
        funext j x
        rw [List.length_cons, Nat.add_sub_cancel, Nat.sub_sub, Nat.add_comm 1]
      rw [List.foldl_cons, ih, List.mapIdx_cons, List.sum_cons, hshift, value_add, value_scale,
        List.length_cons, Nat.add_sub_cancel, Nat.sub_zero]
      ring

end CompensatedSum

open CompensatedSum

/-! ### Steps put together -/

variable (steps : List ℝ)

theorem value_total_manual : ((ResetPolicy.manual : ResetPolicy ℝ).total steps).value = steps.sum := by
  unfold ResetPolicy.total
  rw [value_foldl_add, value_zero, zero_add]

theorem value_total_decay (factor : ℝ) :
    ((ResetPolicy.decay factor).total steps).value =
      (steps.mapIdx fun j step => factor ^ (steps.length - 1 - j) * step).sum := by
  unfold ResetPolicy.total
  rw [value_foldl_decay, value_zero, zero_mul, zero_add]

theorem value_total_periodic (everyEvents : ℕ) :
    ((ResetPolicy.periodic everyEvents : ResetPolicy ℝ).total steps).value =
      (currentPeriod everyEvents steps).sum := by
  unfold ResetPolicy.total
  rw [value_foldl_add, value_zero, zero_add]

/-! ### Unchanged prices -/

theorem imbalance_of_prices_eq {a b : BookTop ℝ} (hbid : a.bidPrice = b.bidPrice)
    (hask : a.askPrice = b.askPrice) :
    imbalance a b = (b.bidSize - a.bidSize) - (b.askSize - a.askSize) := by
  unfold imbalance bidFlow askFlow
  rw [hbid, hask, if_neg (lt_irrefl _), if_neg (lt_irrefl _), if_neg (lt_irrefl _),
    if_neg (lt_irrefl _)]

/-- What lies between the first top of book and the last does not count. -/
theorem sum_imbalances {tops : List (BookTop ℝ)} {first last : BookTop ℝ}
    (hfirst : tops.head? = some first) (hlast : tops.getLast? = some last)
    (hprices : ∀ top ∈ tops, top.bidPrice = first.bidPrice ∧ top.askPrice = first.askPrice) :
    (imbalances tops).sum =
      (last.bidSize - first.bidSize) - (last.askSize - first.askSize) := by
  induction tops generalizing first with
  | nil => cases hfirst
  | cons top rest ih =>
      obtain rfl : top = first := Option.some.inj hfirst
      cases rest with
      | nil =>
          obtain rfl : top = last := Option.some.inj hlast
          show ([] : List ℝ).sum = _
          rw [List.sum_nil]
          ring
      | cons second rest =>
          obtain ⟨hbid, hask⟩ := hprices second (by simp)
          have hrest := ih rfl (List.getLast?_cons_cons ▸ hlast) fun other hother => by
            rw [hbid, hask]
            exact hprices other (List.mem_cons_of_mem _ hother)
          have hcons : imbalances (top :: second :: rest) =
              imbalance top second :: imbalances (second :: rest) := rfl
          rw [hcons, List.sum_cons, hrest, imbalance_of_prices_eq hbid.symm hask.symm]
          ring

end

/-! ## Estimators -/

/-- What a call shows the state. -/
def Call.observation : Call → Observation Float
  | .update event => .event (Estimator.topOf event) (event.trade.map (·.size))
  | .updateBook top => .book top
  | .updateSizes bidSize askSize => .sizes bidSize askSize
  | .reset => .reset

namespace Estimator

/-- A call shows something to the state and leaves the settings. -/
theorem perform_eq (e : Estimator) (c : Call) :
    e.perform c = { e with flow := e.flow.follow e.policy c.observation } := by
  have hadvance : ∀ result : Except (FlowFault Float) (Flow Float),
      e.answer c = (e.advance result).map (Prod.map some id) →
      e.flow.observe e.policy c.observation = result →
      e.perform c = { e with flow := e.flow.follow e.policy c.observation } := by
    intro result hanswer hobserve
    unfold perform Flow.follow
    rw [hanswer, hobserve]
    cases result <;> rfl
  cases c with
  | reset => rfl
  | _ => exact hadvance _ rfl rfl

/-- A run of an estimator is a run of its state. -/
theorem run_start (marketCap : Float) (policy : ResetPolicy Float) (calls : List Call) :
    (start marketCap policy).run calls =
      ⟨marketCap, policy, Flow.run policy (calls.map Call.observation)⟩ := by
  unfold run Flow.run
  induction calls using List.reverseRecOn with
  | nil => rfl
  | append_singleton calls c ih =>
      rw [List.foldl_concat, List.map_append, List.map_singleton, List.foldl_concat, ih]
      exact perform_eq _ c

end Estimator

/-- An accepted period has a step. -/
theorem ResetPolicy.proper_of_validate {policy : ResetPolicy Float}
    (h : policy.validate = .ok ()) : policy.Proper := by
  rintro everyEvents rfl
  unfold validate at h
  dsimp only at h
  split at h
  next hpos => exact hpos
  · cases h

/-- A top of book read as the numbers it stands for. -/
noncomputable def BookTop.exact (top : BookTop Float) : BookTop ℝ :=
  ⟨value top.bidPrice, value top.bidSize, value top.askPrice, value top.askSize⟩

section

open scoped Exact

/-- What lies between does not count where floats are read as numbers. -/
theorem sum_imbalances_exact {tops : List (BookTop Float)} {first last : BookTop Float}
    (hfirst : tops.head? = some first) (hlast : tops.getLast? = some last)
    (hprices : ∀ top ∈ tops, top.bidPrice = first.bidPrice ∧ top.askPrice = first.askPrice) :
    (imbalances (tops.map BookTop.exact)).sum =
      ((value last.bidSize : ℝ) - value first.bidSize) -
        (value last.askSize - value first.askSize) := by
  have hfirst' : (tops.map BookTop.exact).head? = some first.exact := by
    rw [List.head?_map, hfirst]
    rfl
  have hlast' : (tops.map BookTop.exact).getLast? = some last.exact := by
    rw [List.getLast?_map, hlast]
    rfl
  refine sum_imbalances hfirst' hlast' fun top htop => ?_
  obtain ⟨float, hfloat, rfl⟩ := List.mem_map.mp htop
  obtain ⟨hbid, hask⟩ := hprices float hfloat
  unfold BookTop.exact
  rw [hbid, hask]
  exact ⟨rfl, rfl⟩

/-- What the cumulative flow is made of.  In every run of accepted settings it is what the
policy makes of the imbalances of the tops of book accepted since the last reset, and the last
of these is the reported step; the same holds of the numbers of exact arithmetic.  There the
steps put together are a plain sum, a sum with a weight less for every later step, and the sum
of the current period.  And where only sizes were accepted since the last reset and nothing
else clears the flow, it is what the bid side gained from the first top of book to the last
less what the ask side did; so it is in a run of floats whose sizes are read exactly. -/
theorem cumulative_told {c : Config} (hc : c.validate = .ok ()) :
    (∃ e₀, Estimator.build c = .ok e₀ ∧ ∀ calls,
      let steps := imbalances (Flow.accepted c.resetPolicy (calls.map Call.observation))
      (e₀.run calls).reset = e₀ ∧
        (e₀.run calls).flow.cumulative = c.resetPolicy.total steps ∧
        (e₀.run calls).flow.lastStep = steps.getLastD 0) ∧
    (∀ (policy : ResetPolicy ℝ) (observations : List (Observation ℝ)), policy.Proper →
      (Flow.run policy observations).cumulative =
        policy.total (imbalances (Flow.accepted policy observations))) ∧
    (∀ steps : List ℝ,
      ((ResetPolicy.manual : ResetPolicy ℝ).total steps).value = steps.sum ∧
        (∀ factor : ℝ, ((ResetPolicy.decay factor).total steps).value =
          (steps.mapIdx fun j step => factor ^ (steps.length - 1 - j) * step).sum) ∧
        ∀ everyEvents, ((ResetPolicy.periodic everyEvents : ResetPolicy ℝ).total steps).value =
          (steps.drop (everyEvents * ((steps.length - 1) / everyEvents))).sum) ∧
    (∀ (observations : List (Observation ℝ)) (first last : BookTop ℝ),
      Flow.OnlySizes .manual observations →
      (Flow.accepted .manual observations).head? = some first →
      (Flow.accepted .manual observations).getLast? = some last →
      (Flow.run .manual observations).cumulative.value =
        (last.bidSize - first.bidSize) - (last.askSize - first.askSize)) ∧
    ∀ (calls : List Call) (first last : BookTop Float),
      Flow.OnlySizes .manual (calls.map Call.observation) →
      (Flow.accepted .manual (calls.map Call.observation)).head? = some first →
      (Flow.accepted .manual (calls.map Call.observation)).getLast? = some last →
      ((ResetPolicy.manual : ResetPolicy ℝ).total (imbalances
          ((Flow.accepted .manual (calls.map Call.observation)).map BookTop.exact))).value =
        ((value last.bidSize : ℝ) - value first.bidSize) -
          (value last.askSize - value first.askSize) := by
  obtain ⟨-, -, hpolicy⟩ := Config.validate_eq_ok_iff.mp hc
  have hmanual : (ResetPolicy.manual : ResetPolicy ℝ).Proper := fun n h => by cases h
  refine ⟨⟨_, Estimator.build_eq_ok hc, ?_⟩, ?_, ?_, ?_, ?_⟩
  · intro calls
    have htold := Flow.told_run (ResetPolicy.proper_of_validate hpolicy)
      (calls.map Call.observation)
    rw [Estimator.run_start]
    exact ⟨rfl, htold.cumulative, htold.lastStep⟩
  · exact fun policy observations hproper => (Flow.told_run hproper observations).cumulative
  · exact fun steps => ⟨value_total_manual steps, value_total_decay steps,
      value_total_periodic steps⟩
  · intro observations first last hsizes hfirst hlast
    rw [(Flow.told_run hmanual observations).cumulative, value_total_manual]
    exact sum_imbalances hfirst hlast (hsizes.prices_eq hfirst)
  · intro calls first last hsizes hfirst hlast
    rw [value_total_manual]
    exact sum_imbalances_exact hfirst hlast (hsizes.prices_eq hfirst)

/-- Four accepted tops of book in periods of two steps, with a size below zero refused in
between: the third step is alone in its period.  No price is shown, so without a policy the
flow is what the bid side gained. -/
theorem cumulative_told_periodic :
    let c : Config := { marketCap := 1, resetPolicy := .periodic 2 }
    let calls : List Call := [.updateSizes 0 0, .updateSizes 1 0, .updateSizes (-1) 0,
      .updateSizes 2 0, .updateSizes 5 0]
    let tops : List (BookTop Float) := Flow.accepted c.resetPolicy (calls.map Call.observation)
    let manual : List (BookTop Float) := Flow.accepted .manual (calls.map Call.observation)
    c.validate = .ok () ∧ (∃ e₀, Estimator.build c = .ok e₀ ∧
      imbalances tops = [1, 1, 3] ∧
      (e₀.run calls).flow.cumulative = c.resetPolicy.total (imbalances tops) ∧
      (e₀.run calls).cumulative = 3) ∧
    Flow.OnlySizes .manual (calls.map Call.observation) ∧
      ∃ first last, manual.head? = some first ∧ manual.getLast? = some last ∧
        ((ResetPolicy.manual : ResetPolicy ℝ).total (imbalances (manual.map BookTop.exact))).value =
          ((value last.bidSize : ℝ) - value first.bidSize) -
            (value last.askSize - value first.askSize) := by
  intro c calls tops manual
  have hc : c.validate = .ok () :=
    Config.validate_eq_ok_iff.mpr ⟨by decide +kernel, by decide +kernel, rfl⟩
  obtain ⟨⟨e₀, hbuild, hrun⟩, -, -, -, hexact⟩ := cumulative_told hc
  have hsteps : imbalances tops = [1, 1, 3] := by decide +kernel
  have hcumulative := (hrun calls).2.1
  have hvalue : (e₀.run calls).cumulative = 3 := by
    have htotal : (c.resetPolicy.total [1, 1, 3]).value = 3 := by decide +kernel
    unfold Estimator.cumulative
    rw [hcumulative]
    exact (congrArg (fun steps => (c.resetPolicy.total steps).value) hsteps).trans htotal
  have hsizes : Flow.OnlySizes .manual (calls.map Call.observation) :=
    .of_forall (by simp [calls, Call.observation, Observation.KeepsPrices])
  have hlength : manual.length = 4 := by decide +kernel
  have hne : manual ≠ [] := List.ne_nil_of_length_pos (hlength ▸ by decide)
  have hfirst := List.head?_eq_some_head hne
  have hlast := List.getLast?_eq_some_getLast hne
  exact ⟨hc, ⟨e₀, hbuild, hsteps, hcumulative, hvalue⟩, hsizes, _, _, hfirst, hlast,
    hexact calls _ _ hsizes hfirst hlast⟩

end

end MarketSignals.OrderFlow
