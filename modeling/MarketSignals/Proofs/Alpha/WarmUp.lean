import MarketSignals.Proofs.Alpha.Growth
import MarketSignals.Proofs.Regime.Reference

/-!
# Warm-up

An estimator warms up by successful updates.  The first one only seeds it, and each of
the others is one sample more, until as many have come as are required.  A gauge keeps
this count from what happens to the estimator.  A detector counts with a phase, a
number of samples expected for the reference, the size of the reference and that of
the window; these come to the same.

## Main definitions

* `Gauge` — how far warm-up has come; `Gauge.next`, `Gauge.replaced` what moves it.
* `Alpha.Gauged` — an estimator that has come as far as a gauge says.

## Main results

* `Gauge.status_next_advance` — the status after so many updates.
* `Alpha.Gauged.update`, `Alpha.Gauged.rebase`, `Alpha.Gauged.installReference` — one
  call.
-/

namespace MarketSignals

/-! ## Gauges -/

/-- How far the warm-up of an estimator has come. -/
structure Gauge where
  /-- Whether the event has come that seeds the estimator and gives no sample. -/
  seeded : Bool
  collected : Nat
  required : Nat

namespace Gauge

variable {g : Gauge} {m : Nat}

/-- After an update that succeeds. -/
def next (g : Gauge) : Gauge :=
  if g.seeded then { g with collected := min g.required (g.collected + 1) }
  else { g with seeded := true }

/-- After a new reference: only `m` samples are required, and those that have gone into
the old one do not count. -/
def replaced (m : Nat) (g : Gauge) : Gauge :=
  { g with collected := g.collected - (g.required - m), required := m }

/-- What an estimator says of its warm-up. -/
def status (g : Gauge) : SignalStatus :=
  if g.collected < g.required then .insufficientData g.collected g.required else .ready

/-- After `n` updates that succeed. -/
def advance (g : Gauge) (n : Nat) : Gauge :=
  if n = 0 then g
  else
    let samples := if g.seeded then n else n - 1
    { seeded := true, collected := min g.required (g.collected + samples), required := g.required }

/-- One update, and then `n` more. -/
theorem advance_next (hle : g.collected ≤ g.required) (n : Nat) :
    g.next.advance n = g.advance (n + 1) := by
  obtain ⟨seeded, collected, required⟩ := g
  have hle' : collected ≤ required := hle
  cases seeded with
  | false => cases n <;> simp [advance, next, hle']
  | true =>
      cases n with
      | zero => rfl
      | succ n =>
          simp only [advance, next, if_true, Nat.add_one_ne_zero, if_false, mk.injEq, true_and,
            and_true]
          omega

/-- `n` updates, and then one more. -/
theorem next_advance (hle : g.collected ≤ g.required) (n : Nat) :
    (g.advance n).next = g.advance (n + 1) := by
  obtain ⟨seeded, collected, required⟩ := g
  have hle' : collected ≤ required := hle
  cases n with
  | zero => cases seeded <;> simp [advance, next, hle']
  | succ n =>
      have hmin : ∀ j, min required (min required (collected + j) + 1) =
          min required (collected + (j + 1)) := by
        intro j
        omega
      cases seeded with
      | false => exact congrArg (Gauge.mk true · required) (hmin n)
      | true => exact congrArg (Gauge.mk true · required) (hmin (n + 1))

/-- The status that the update after `n` others gives. -/
theorem status_next_advance (hle : g.collected ≤ g.required) (n : Nat) :
    (g.advance n).next.status =
      let taken := g.collected + n + if g.seeded then 1 else 0
      if taken < g.required then .insufficientData taken g.required else .ready := by
  rw [next_advance hle]
  obtain ⟨seeded, collected, required⟩ := g
  have hmin : ∀ k, (if min required k < required then
      SignalStatus.insufficientData (min required k) required else .ready) =
        if k < required then .insufficientData k required else .ready := by
    intro k
    by_cases hk : k < required
    · rw [Nat.min_eq_right hk.le]
    · rw [Nat.min_eq_left (Nat.not_lt.mp hk), if_neg (Nat.lt_irrefl _), if_neg hk]
  cases seeded with
  | true => exact hmin (collected + (n + 1))
  | false => exact hmin (collected + n)

theorem collected_lt_of_status {collected required : Nat}
    (hs : g.status = .insufficientData collected required) : collected < required := by
  unfold status at hs
  split at hs
  · cases hs
    assumption
  · cases hs

/-- Warm-up is over. -/
def Full (g : Gauge) : Prop := g.collected = g.required

theorem Full.next (hf : g.Full) : g.next.Full := by
  unfold Full Gauge.next at *
  split
  · show min g.required (g.collected + 1) = g.required
    omega
  · exact hf

theorem Full.replaced (hf : g.Full) (hm : m ≤ g.required) : (g.replaced m).Full := by
  unfold Full Gauge.replaced at *
  show g.collected - (g.required - m) = m
  omega

theorem Full.status_eq (hf : g.Full) : g.status = .ready := if_neg (by rw [hf]; exact lt_irrefl _)

theorem full_of_status (hle : g.collected ≤ g.required) (hs : g.status = .ready) : g.Full := by
  unfold status at hs
  split at hs
  · cases hs
  · unfold Full
    omega

end Gauge

/-! ## Readings of a warm-up -/

/-- A reading says what a gauge says; one of a detector that warms up is blank. -/
structure SignalReading.Shows (g : Gauge) (kind : AlphaKind) (reading : SignalReading) : Prop where
  status : reading.status = g.status
  blank : kind = .klRegime → ∀ collected required,
    reading.status = .insufficientData collected required →
      reading.value = 0 ∧ reading.detail = .klRegime false 0 1 0

/-! ## Detectors -/

namespace Regime

/-- A detector has come as far as a gauge says. -/
structure Gauged (e₀ : Estimator) (g : Gauge) (e : Estimator) : Prop where
  inStep : ∃ past, InStep e₀ past e
  seeded : g.seeded = e.returns.lastPrice.isSome
  required : g.required = e.referenceTarget + e₀.windowLength
  collected : g.collected = min e.reference.total e.referenceTarget + e.window.size
  /-- Without a price there is no return, so no sample has been taken in. -/
  idle : g.seeded = false → g.collected = 0
  /-- A reference that is not filled any more has the samples expected for it. -/
  complete : e.filling = false → e.referenceTarget ≤ e.reference.total

variable {e₀ e e' : Estimator} {g : Gauge} {event : MarketEvent} {reading : SignalReading}

/-- A fresh detector has all to collect, for the reference and for the window. -/
theorem Fresh.gauged (hf : Fresh e₀) :
    Gauged e₀ ⟨false, 0, e₀.referenceSize + e₀.windowLength⟩ e₀ := by
  have hin := hf.inStep
  have hstart : e₀.reset = e₀ := hf.reset_eq
  rw [hstart] at hin
  refine ⟨⟨_, hin⟩, ?_, ?_, ?_, fun _ => rfl, ?_⟩
  · rw [← hstart]; rfl
  · rw [← hstart]; rfl
  · rw [← hstart]
    show 0 = min 0 _ + 0
    omega
  · rw [← hstart]
    intro hfalse
    cases hfalse

/-- Detectors in the reference phase have nothing in the window. -/
theorem InStep.size_of_filling {past : History} (h : InStep e₀ past e) (hf : Fresh e₀)
    (hfill : e.filling = true) :
    e.window.size = 0 ∧ e.reference.total < e.referenceTarget := by
  have hpossible := h.possible
  have htarget := h.target hfill
  rw [h.filling] at hfill
  cases past with
  | frozen => cases hfill
  | filling xs =>
      rw [h.size_eq, htarget, h.total_reference hf rfl]
      exact ⟨Nat.zero_min _, hpossible⟩

theorem Gauged.collected_le (h : Gauged e₀ g e) : g.collected ≤ g.required := by
  obtain ⟨past, hin⟩ := h.inStep
  have hsize := hin.size_eq
  rw [h.collected, h.required]
  omega

/-- A sample changes nothing about how many are expected for the reference. -/
theorem referenceTarget_push (e : Estimator) (x : Float) :
    (e.push x).2.referenceTarget = e.referenceTarget := by
  unfold Estimator.push
  split
  · rfl
  · split
    · rfl
    · simp only
      split
      · unfold Estimator.fill
        split
        · rfl
        · simp only
          split <;> rfl
      · exact (sameReference_slide e x _).target

/-- What a peek reads is a return once there is a price. -/
theorem isSome_of_peek {t : ReturnTracker} {pending : PendingReturn}
    (hp : t.peek event = .ok pending) : pending.value.isSome = t.lastPrice.isSome := by
  obtain ⟨price, _, hp⟩ := bind_eq_ok_iff.mp hp
  cases hp
  exact Option.isSome_map ..

/-- A sample that is taken in counts once, in the reference or in the window. -/
theorem Gauged.sample (h : Gauged e₀ g e) (hf : Fresh e₀) {past : History}
    (hin : InStep e₀ past e) {x : Float} (hin' : InStep e₀ (past.fold e₀.referenceSize x) e')
    (htarget : e'.referenceTarget = e.referenceTarget) :
    min e'.reference.total e'.referenceTarget + e'.window.size =
        min g.required (g.collected + 1) ∧
      (e'.filling = false → e'.referenceTarget ≤ e'.reference.total) ∧
      (e.filling = true → e'.window.size = 0) := by
  have hcollected := h.collected
  have hrequired := h.required
  have hsize := hin.size_eq
  have hsize' := hin'.size_eq
  cases past with
  | filling xs =>
      have hfill : e.filling = true := hin.filling
      have hshort : xs.length < e₀.referenceSize := hin.possible
      have htotal : e.reference.total = xs.length := hin.total_reference hf rfl
      have htotal' : e'.reference.total = xs.length + 1 := by
        have hgrown : (xs ++ [x]).length = xs.length + 1 := List.length_append
        rw [← hgrown]
        refine hin'.total_reference hf ?_
        rw [History.fold]
        split <;> rfl
      have hnone : e'.window.size = 0 := by
        rw [hsize', History.fold]
        split <;> exact Nat.zero_min _
      have hnow : e.referenceTarget = e₀.referenceSize := hin.target hfill
      rw [hnone, htarget, htotal', hnow]
      rw [hin.size_of_filling hf hfill |>.1, htotal, hnow] at hcollected
      refine ⟨by omega, fun hfilled => ?_, fun _ => rfl⟩
      rw [hin'.filling, History.fold] at hfilled
      split at hfilled
      · cases hfilled
      · omega
  | frozen baseline xs =>
      have hfill : e.filling = false := hin.filling
      have hfull := h.complete hfill
      have htotal : e'.reference.total = e.reference.total := by
        rw [hin.reference, hin'.reference]
        rfl
      have hmore : (History.recent (.frozen baseline (xs ++ [x]))).length = xs.length + 1 :=
        List.length_append
      rw [History.fold, hmore] at hsize'
      change e.window.size = min xs.length _ at hsize
      rw [htarget, htotal]
      refine ⟨by omega, fun _ => hfull, fun htrue => ?_⟩
      rw [hfill] at htrue
      cases htrue

/-- A return that is taken in moves the gauge on. -/
theorem Gauged.next_sample (h : Gauged e₀ g e) (hf : Fresh e₀) (hseeded : g.seeded = true)
    {past : History} (hin : InStep e₀ past e) {x : Float}
    (hin' : InStep e₀ (past.fold e₀.referenceSize x) e')
    (htarget : e'.referenceTarget = e.referenceTarget) (pending : PendingReturn) :
    Gauged e₀ g.next { e' with returns := e'.returns.commit pending } := by
  obtain ⟨hcollected, hcomplete, _⟩ := h.sample hf hin hin' htarget
  have hnext : g.next = { g with collected := min g.required (g.collected + 1) } := if_pos hseeded
  rw [hnext]
  refine ⟨⟨_, hin'.congr e'.disabled _ rfl⟩, hseeded, ?_, hcollected.symm, fun hfalse => ?_,
    hcomplete⟩
  · exact h.required.trans (congrArg (· + e₀.windowLength) htarget.symm)
  · rw [hseeded] at hfalse
    cases hfalse

/-- As long as the window is not full, a detector reports what the gauge says. -/
theorem Gauged.shows_progress (h : Gauged e₀ g e) (hshort : e.window.size < e₀.windowLength) :
    e.progress.toSignal.Shows g .klRegime := by
  obtain ⟨past, hin⟩ := h.inStep
  have hcollected := h.collected
  have hrequired := h.required
  refine ⟨?_, fun _ _ _ _ => ⟨rfl, rfl⟩⟩
  unfold Gauge.status
  rw [if_pos (by omega), hcollected, hrequired, ← hin.windowLength]
  rfl

/-- A detector with a full window has collected all. -/
theorem Gauged.shows_ready (h : Gauged e₀ g e) (hf : Fresh e₀)
    (hfull : e₀.windowLength ≤ e.window.size) (result : TestResult) :
    (Reading.ready result).toSignal.Shows g .klRegime := by
  obtain ⟨past, hin⟩ := h.inStep
  have hcollected := h.collected
  have hrequired := h.required
  have hfill : e.filling = false := by
    cases hfill : e.filling with
    | false => rfl
    | true =>
        have hnone := (hin.size_of_filling hf hfill).1
        have hpos := hf.windowLength_pos
        omega
  have hcomplete := h.complete hfill
  refine ⟨?_, fun _ _ _ hs => by cases hs⟩
  unfold Gauge.status
  rw [if_neg (by omega)]
  rfl

/-- A return that is taken in moves the gauge on, and the reading says how far it is. -/
theorem Gauged.accepted (h : Gauged e₀ g e) (hf : Fresh e₀) (hseeded : g.seeded = true)
    {past : History} (hin : InStep e₀ past e) {x : Float} {pushed : Estimator}
    (hin' : InStep e₀ (past.fold e₀.referenceSize x) pushed) {o : Outcome Reading}
    (htarget : o.2.referenceTarget = e.referenceTarget) (hc : Concluded pushed e.filling o)
    {pending : PendingReturn} (hu : Estimator.accepted pending o = (.ok reading, e')) :
    Gauged e₀ g.next e' ∧ reading.Shows g.next .klRegime := by
  have hlength := hin'.windowLength
  cases hc with
  | warming short =>
      cases hu
      have hg := h.next_sample hf hseeded hin hin' htarget pending
      refine ⟨hg, hg.shows_progress ?_⟩
      show pushed.window.size < e₀.windowLength
      rcases short with hfill | hsize
      · rw [(h.sample hf hin hin' htarget).2.2 hfill]
        exact hf.windowLength_pos
      · rwa [hlength] at hsize
  | tested result full evaluated =>
      cases hu
      have hg := h.next_sample hf hseeded hin hin' htarget pending
      exact ⟨hg, hg.shows_ready hf (hlength ▸ full) result⟩
  | refused | panicked => cases hu

/-- An update that succeeds seeds the detector or takes a return in. -/
theorem Gauged.update (h : Gauged e₀ g e) (hf : Fresh e₀)
    (hu : e.update event = (.ok reading, e')) :
    Gauged e₀ g.next e' ∧ reading.Shows g.next .klRegime := by
  obtain ⟨past, hin⟩ := h.inStep
  unfold Estimator.update at hu
  split at hu
  · cases hu
  · split at hu
    · cases hu
    · next pending hpeek =>
        have hsome := isSome_of_peek hpeek
        rw [← h.seeded] at hsome
        split at hu
        · next hvalue =>
            rw [hvalue] at hsome
            have hnext : g.next = { g with seeded := true } := if_neg (by rw [← hsome]; decide)
            have hzero := h.idle hsome.symm
            have hcollected := h.collected
            have hpos := hf.windowLength_pos
            cases hu
            have hg : Gauged e₀ g.next { e with returns := e.returns.commit pending } := by
              rw [hnext]
              exact ⟨⟨past, hin.congr _ _ rfl⟩, rfl, h.required, h.collected,
                (fun hfalse => by cases hfalse), h.complete⟩
            exact ⟨hg, hg.shows_progress (show e.window.size < e₀.windowLength by omega)⟩
        · next ret hvalue =>
            rw [hvalue] at hsome
            rcases hin.push hf ret with ⟨_, error, hpush⟩ | ⟨_, pushed, hin', _, _, hc⟩
            · rw [hpush] at hu
              cases hu
            · exact h.accepted hf hsome.symm hin hin' (referenceTarget_push e ret) hc hu

/-- A new reference counts for itself: what is in the window is what is left. -/
theorem Gauged.renewed (h : Gauged e₀ g e) (hf : Fresh e₀) {past : History}
    (hin : InStep e₀ past e') (hwindow : e'.window = e.window)
    (hreturns : e'.returns = e.returns) (htarget : e'.referenceTarget = 0) :
    Gauged e₀ (g.replaced e₀.windowLength) e' := by
  have hcollected := h.collected
  have hrequired := h.required
  have hleft : g.collected - (g.required - e₀.windowLength) = e.window.size := by
    obtain ⟨past', hin'⟩ := h.inStep
    cases hfill : e.filling with
    | false =>
        have hcomplete := h.complete hfill
        omega
    | true =>
        obtain ⟨hnone, hshort⟩ := hin'.size_of_filling hf hfill
        omega
  refine ⟨⟨past, hin⟩, ?_, ?_, ?_, fun hfalse => ?_, fun _ => ?_⟩
  · rw [hreturns]
    exact h.seeded
  · show e₀.windowLength = e'.referenceTarget + e₀.windowLength
    omega
  · show g.collected - (g.required - e₀.windowLength) = _
    rw [hleft, hwindow, htarget]
    omega
  · show g.collected - (g.required - e₀.windowLength) = 0
    rw [h.idle hfalse]
    exact Nat.zero_sub _
  · rw [htarget]
    exact Nat.zero_le _

theorem Gauged.rebase (h : Gauged e₀ g e) (hf : Fresh e₀) (hr : e.rebase = .ok e') :
    Gauged e₀ (g.replaced e₀.windowLength) e' := by
  obtain ⟨past, hin⟩ := h.inStep
  have hin' := (hin.rebase hf hr).1
  obtain ⟨-, rfl⟩ := Estimator.rebase_eq_ok_iff.mp hr
  exact h.renewed hf hin' rfl rfl rfl

theorem Gauged.installReference (h : Gauged e₀ g e) (hf : Fresh e₀) {counts : List Nat}
    (hi : e.installReference counts = .ok e') : Gauged e₀ (g.replaced e₀.windowLength) e' := by
  obtain ⟨past, hin⟩ := h.inStep
  have hin' := (hin.installReference hi).1
  obtain ⟨-, rfl⟩ := Estimator.installReference_eq_ok_iff.mp hi
  exact h.renewed hf hin' rfl rfl rfl

end Regime

/-! ## Estimators that only need to be seeded -/

/-- The gauge of an estimator that gives a signal from its second update on. -/
structure Gauge.Brief (g : Gauge) (seeded : Bool) : Prop where
  seeded : g.seeded = seeded
  required : g.required = 2
  collected : g.collected = 1 ∨ g.seeded = true ∧ g.collected = 2

theorem Gauge.Brief.next {g : Gauge} {seeded : Bool} (h : g.Brief seeded) :
    g.next.Brief true ∧ g.next.status = if seeded then .ready else .insufficientData 1 2 := by
  obtain ⟨rfl, hrequired, hcollected⟩ := h
  obtain ⟨seeded, collected, required⟩ := g
  change required = 2 at hrequired
  change collected = 1 ∨ seeded = true ∧ collected = 2 at hcollected
  subst hrequired
  cases seeded with
  | true =>
      rcases hcollected with rfl | ⟨_, rfl⟩ <;> exact ⟨⟨rfl, rfl, .inr ⟨rfl, rfl⟩⟩, rfl⟩
  | false =>
      rcases hcollected with rfl | ⟨hfalse, _⟩
      · exact ⟨⟨rfl, rfl, .inl rfl⟩, rfl⟩
      · cases hfalse

/-- A volatility estimator is seeded by its first price. -/
theorem Garch.status_of_update {e e' : Garch.Estimator} {event : MarketEvent}
    {reading : SignalReading} (hu : e.update event = .ok (reading, e')) :
    reading.status = (if e.returns.lastPrice.isSome then .ready else .insufficientData 1 2) ∧
      e'.returns.lastPrice.isSome = true := by
  obtain ⟨pending, hpeek, hu⟩ := bind_eq_ok_iff.mp hu
  have hsome := Regime.isSome_of_peek (mapError_eq_ok_iff.mp hpeek)
  rw [← hsome]
  cases hvalue : pending.value with
  | none =>
      rw [hvalue] at hu
      cases hu
      exact ⟨rfl, rfl⟩
  | some ret =>
      rw [hvalue] at hu
      obtain ⟨fed, _, hu⟩ := bind_eq_ok_iff.mp hu
      cases hu
      exact ⟨rfl, rfl⟩

namespace OrderFlow

theorem last_of_fold {policy : ResetPolicy Float} {f f' : Flow Float} {top : BookTop Float}
    {traded : Float} (hf : f.fold policy top traded = .ok f') : f'.last = some top := by
  unfold Flow.fold at hf
  simp only at hf
  split at hf
  · cases hf
  · split at hf
    · cases hf
      rfl
    · split at hf
      · cases hf
      · split at hf
        · cases hf
        · cases hf
          rfl

/-- An estimator of order flow is seeded by its first top of book. -/
theorem status_of_update {e e' : Estimator} {event : MarketEvent} {reading : SignalReading}
    (hu : e.update event = .ok (reading, e')) :
    reading.status = (if e.flow.last.isSome then .ready else .insufficientData 1 2) ∧
      e'.flow.last.isSome = true := by
  obtain ⟨flow, hflow, hu⟩ := bind_eq_ok_iff.mp hu
  have hlast : flow.last.isSome = true := by
    obtain ⟨_, _, hflow⟩ := bind_eq_ok_iff.mp (mapError_eq_ok_iff.mp hflow)
    split at hflow
    · rw [last_of_fold hflow]
      rfl
    · split at hflow
      · rw [last_of_fold hflow]
        rfl
      · cases hflow
  cases hu
  refine ⟨?_, hlast⟩
  show (if e.flow.last.isNone = true then _ else _) = _
  cases e.flow.last <;> rfl

end OrderFlow

/-! ## All families -/

namespace Alpha

/-- The gauge of a fresh estimator. -/
def gauge : Alpha → Gauge
  | garch _ | ofi _ => ⟨false, 1, 2⟩
  | klRegime e => ⟨false, 0, e.referenceSize + e.windowLength⟩

/-- How many samples are required beside those of a reference. -/
def quota : Alpha → Nat
  | garch _ | ofi _ => 2
  | klRegime e => e.windowLength

/-- An estimator, from a fresh one, has come as far as a gauge says. -/
inductive Gauged : Alpha → Gauge → Alpha → Prop
  | garch {e₀ e : Garch.Estimator} {g : Gauge} (brief : g.Brief e.returns.lastPrice.isSome) :
      Gauged (garch e₀) g (garch e)
  | klRegime {e₀ e : Regime.Estimator} {g : Gauge} (fresh : Regime.Fresh e₀)
      (gauged : Regime.Gauged e₀ g e) : Gauged (klRegime e₀) g (klRegime e)
  | ofi {e₀ e : OrderFlow.Estimator} {g : Gauge} (brief : g.Brief e.flow.last.isSome) :
      Gauged (ofi e₀) g (ofi e)

variable {fresh a a' : Alpha} {g : Gauge}

theorem settle_ok {β ε : Type} {embed : ε → Alpha} {old : ε} {x : Except EngineError (β × ε)}
    {y : β} (h : settle embed old x = (.ok y, a')) : ∃ new, x = .ok (y, new) ∧ a' = embed new := by
  cases x with
  | error error => cases h
  | ok p =>
      cases h
      exact ⟨p.2, rfl, rfl⟩

namespace Gauged

theorem collected_le (h : Gauged fresh g a) : g.collected ≤ g.required := by
  cases h with
  | klRegime _ gauged => exact gauged.collected_le
  | garch brief | ofi brief =>
      rw [brief.required]
      rcases brief.collected with h | ⟨_, h⟩ <;> omega

theorem quota_le (h : Gauged fresh g a) : fresh.quota ≤ g.required := by
  cases h with
  | klRegime _ gauged =>
      rw [gauged.required]
      exact Nat.le_add_left _ _
  | garch brief | ofi brief => exact brief.required.ge

/-- An update that succeeds moves the gauge on, and the reading says how far it is. -/
theorem update (h : Gauged fresh g a) {event : MarketEvent} {reading : SignalReading}
    (hu : a.update event = (.ok reading, a')) :
    Gauged fresh g.next a' ∧ reading.Shows g.next fresh.kind := by
  cases h with
  | garch brief =>
      obtain ⟨e', hnew, rfl⟩ := settle_ok hu
      obtain ⟨hstatus, hsome⟩ := Garch.status_of_update hnew
      obtain ⟨hbrief, hnext⟩ := brief.next
      exact ⟨.garch (hsome ▸ hbrief), hstatus.trans hnext.symm, fun hkind => by cases hkind⟩
  | @klRegime e₀ e _ hf gauged =>
      have hmap : (e.update event).map id Alpha.klRegime = (.ok reading, a') := hu
      cases hu' : e.update event with
      | mk result e' =>
          rw [hu'] at hmap
          cases hmap
          obtain ⟨hg, hshows⟩ := gauged.update hf hu'
          exact ⟨.klRegime hf hg, hshows⟩
  | ofi brief =>
      obtain ⟨e', hnew, rfl⟩ := settle_ok hu
      obtain ⟨hstatus, hsome⟩ := OrderFlow.status_of_update hnew
      obtain ⟨hbrief, hnext⟩ := brief.next
      exact ⟨.ofi (hsome ▸ hbrief), hstatus.trans hnext.symm, fun hkind => by cases hkind⟩

theorem rebase (h : Gauged fresh g a) (hr : a.rebase = (.ok (), a')) :
    Gauged fresh (g.replaced fresh.quota) a' := by
  cases h with
  | garch | ofi => cases hr
  | klRegime hf gauged =>
      obtain ⟨e', hnew, rfl⟩ := settle_ok hr
      obtain ⟨_, hrebased, heq⟩ := map_eq_ok_iff.mp hnew
      cases heq
      exact .klRegime hf (gauged.rebase hf hrebased)

theorem installReference (h : Gauged fresh g a) {counts : List Nat}
    (hi : a.installReference counts = (.ok (), a')) :
    Gauged fresh (g.replaced fresh.quota) a' := by
  cases h with
  | garch | ofi => cases hi
  | klRegime hf gauged =>
      obtain ⟨e', hnew, rfl⟩ := settle_ok hi
      obtain ⟨_, hinstalled, heq⟩ := map_eq_ok_iff.mp hnew
      cases heq
      exact .klRegime hf (gauged.installReference hf hinstalled)

end Gauged

/-- A fresh estimator has its whole warm-up before it. -/
theorem GrownFrom.gauged (h : GrownFrom fresh a) : Gauged fresh fresh.gauge fresh := by
  cases h with
  | garch settings =>
      subst settings
      exact .garch ⟨rfl, rfl, .inl rfl⟩
  | klRegime hf _ => exact .klRegime hf hf.gauged
  | ofi settings =>
      subst settings
      exact .ofi ⟨rfl, rfl, .inl rfl⟩

/-- A detector is built with all to collect, for the reference and for the window. -/
theorem gauge_of_build {c : Regime.Config}
    (hb : (AlphaConfig.klRegime c).build = .ok fresh) :
    fresh.gauge = ⟨false, 0, c.referenceLength + c.windowLength⟩ ∧
      fresh.quota = c.windowLength := by
  obtain ⟨e, he, rfl⟩ := map_eq_ok_iff.mp hb
  rw [mapError_eq_ok_iff, Regime.build_eq] at he
  obtain ⟨b, _, rfl⟩ := map_eq_ok_iff.mp he
  exact ⟨rfl, rfl⟩

theorem gauge_of_build_brief {config : AlphaConfig}
    (hb : config.build = .ok fresh) (hkind : config.kind ≠ .klRegime) :
    fresh.gauge = ⟨false, 1, 2⟩ ∧ fresh.quota = 2 := by
  cases config with
  | garch c | ofi c =>
      obtain ⟨e, _, rfl⟩ := map_eq_ok_iff.mp hb
      exact ⟨rfl, rfl⟩
  | klRegime c => exact absurd rfl hkind

end Alpha

end MarketSignals
