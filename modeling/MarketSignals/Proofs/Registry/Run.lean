import MarketSignals.Registry.Dispatch

/-!
# Runs of registry calls

A registry is used by one call after the other.  `perform` gives the answer to a
call and the registry it leaves; a call that fails is part of a run as well.

The order in which `clear` visits the names is not determined, so a call to
clear carries an order, and a run may use any order that visits every name once.

## Main definitions

* `Registry.perform` — one call.
* `Registry.Run` — a run, labelled with its calls and their answers.
* `Registry.performAll` — the run that given calls make.
* `Registry.issued` — the handles that a run gave out, in order.
-/

namespace MarketSignals

variable {ε : Type}

/-- Some listing of the names, each of them once, gives the handles in this
order. -/
def Arena.Visits (a : Arena ε) (order : List Handle) : Prop :=
  ∃ keys : List SlotKey, keys.Nodup ∧ (∀ k, k ∈ keys ↔ k ∈ a.byKey) ∧
    order = keys.filterMap (a.byKey[·]?)

namespace Registry

/-- A call on a registry. -/
inductive Call (ε : Type) where
  | register (alphaId : AlphaId) (instrumentId : InstrumentId) (config : AlphaConfig)
  | registerEstimator (alphaId : AlphaId) (instrumentId : InstrumentId) (estimator : ε)
  | deregister (h : Handle)
  /-- Remove every estimator, visiting the handles in the given order. -/
  | clear (order : List Handle)
  | update (h : Handle) (event : MarketEvent)
  | dispatch (event : MarketEvent)
  | reset (h : Handle)
  | rebase (h : Handle)
  | referenceBinning (h : Handle)
  | installReference (h : Handle) (counts : List Nat)
  | latest (h : Handle)

/-- What a call gives back when it succeeds. -/
inductive Reply where
  | handle (h : Handle)
  | done
  | output (o : SignalOutput)
  | report (d : DispatchReport)
  | binning (b : Binning)
  | latest (o : Option SignalOutput)

/-- The answer to a call.  Only a registration lets a panic through. -/
abbrev Answer := Except Fault Reply

/-- The answer to a call that is refused where it fails. -/
def answer {β : Type} (f : β → Reply) : Except EngineError β → Answer
  | .ok x => .ok (f x)
  | .error error => .error (.refused error)

/-- The answer to a registration; one that fails leaves the registry as it was. -/
def enrolled (r : Registry ε) : Except Fault (Handle × Registry ε) → Answer × Registry ε
  | .ok (h, r') => (.ok (.handle h), r')
  | .error fault => (.error fault, r)

/-- The answer to a removal; one that fails leaves the registry as it was. -/
def removed (r : Registry ε) : Except EngineError (Registry ε) → Answer × Registry ε
  | .ok r' => (.ok .done, r')
  | .error error => (.error (.refused error), r)

/-- A registration succeeds and gives its handle out, or fails and changes
nothing. -/
theorem enrolled_eq {r r' : Registry ε} {x : Except Fault (Handle × Registry ε)} {a : Answer}
    (he : r.enrolled x = (a, r')) :
    (∃ h, x = .ok (h, r') ∧ a = .ok (.handle h)) ∨
      ∃ fault, x = .error fault ∧ a = .error fault ∧ r' = r := by
  cases x with
  | ok p =>
      cases he
      exact .inl ⟨p.1, rfl, rfl⟩
  | error fault =>
      cases he
      exact .inr ⟨fault, rfl, rfl, rfl⟩

/-- A removal succeeds, or fails and changes nothing. -/
theorem removed_eq {r r' : Registry ε} {x : Except EngineError (Registry ε)} {a : Answer}
    (he : r.removed x = (a, r')) :
    (x = .ok r' ∧ a = .ok .done) ∨
      ∃ error, x = .error error ∧ a = .error (.refused error) ∧ r' = r := by
  cases x with
  | ok p =>
      cases he
      exact .inl ⟨rfl, rfl⟩
  | error error =>
      cases he
      exact .inr ⟨error, rfl, rfl, rfl⟩

variable [AlphaHost ε]

/-- The answer to a call, and the registry it leaves. -/
def perform (r : Registry ε) : Call ε → Answer × Registry ε
  | .register alphaId instrumentId config =>
      r.enrolled (r.register alphaId instrumentId config)
  | .registerEstimator alphaId instrumentId estimator =>
      r.enrolled (r.registerEstimator alphaId instrumentId estimator)
  | .deregister h => r.removed (r.deregister h)
  | .clear order => (.ok .done, r.clearInOrder order)
  | .update h event => (r.update h event).map (answer .output) id
  | .dispatch event => (.ok (.report (r.dispatch event).report), (r.dispatch event).registry)
  | .reset h => (r.reset h).map (answer fun _ => .done) id
  | .rebase h => (r.rebase h).map (answer fun _ => .done) id
  | .referenceBinning h => (r.referenceBinning h).map (answer .binning) id
  | .installReference h counts => (r.installReference h counts).map (answer fun _ => .done) id
  | .latest h => (answer .latest (r.latestOf h), r)

/-- The calls that may be made: clearing visits every name once, and nothing
else is asked of any argument. -/
def Call.Allowed (r : Registry ε) : Call ε → Prop
  | .clear order => r.arena.Visits order
  | _ => True

/-- A call of a run and its answer. -/
structure Step (ε : Type) where
  call : Call ε
  answer : Answer

/-- The steps of a run that leads from one registry to another. -/
inductive Run : Registry ε → List (Step ε) → Registry ε → Prop
  | nil (r : Registry ε) : Run r [] r
  | cons {r r' r'' : Registry ε} {c : Call ε} {a : Answer} {rest : List (Step ε)}
      (allowed : c.Allowed r) (performed : r.perform c = (a, r')) (tail : Run r' rest r'') :
      Run r (⟨c, a⟩ :: rest) r''

/-- Makes calls one after the other. -/
def performAll (r : Registry ε) : List (Call ε) → List (Step ε) × Registry ε
  | [] => ([], r)
  | c :: rest =>
      let made := r.perform c
      let others := made.2.performAll rest
      (⟨c, made.1⟩ :: others.1, others.2)

theorem map_call_performAll (r : Registry ε) (calls : List (Call ε)) :
    (r.performAll calls).1.map (·.call) = calls := by
  induction calls generalizing r with
  | nil => rfl
  | cons c rest ih => exact congrArg (c :: ·) (ih _)

/-- Calls other than clearing may be made in every state. -/
theorem run_performAll (r : Registry ε) {calls : List (Call ε)}
    (hc : ∀ order, .clear order ∉ calls) :
    Run r (r.performAll calls).1 (r.performAll calls).2 := by
  induction calls generalizing r with
  | nil => exact .nil r
  | cons c rest ih =>
      have hrest : ∀ order, .clear order ∉ rest :=
        fun order hm => hc order (List.mem_cons_of_mem c hm)
      have allowed : c.Allowed r := by
        cases c with
        | clear order => exact absurd List.mem_cons_self (hc order)
        | _ => trivial
      exact .cons allowed rfl (ih _ hrest)

/-- The handle that a step gave out, if it is a registration that succeeded. -/
def Step.issued? (step : Step ε) : Option Handle :=
  match step.answer with
  | .ok (.handle h) => some h
  | _ => none

omit [AlphaHost ε] in
theorem Step.issued?_eq_some_iff {step : Step ε} {h : Handle} :
    step.issued? = some h ↔ step.answer = .ok (.handle h) := by
  unfold Step.issued?
  split
  · next heq => simp [heq]
  · next hne =>
      constructor
      · intro heq
        cases heq
      · intro heq
        exact absurd heq (hne h)

/-- The handles that a run gave out, the first one first. -/
def issued (steps : List (Step ε)) : List Handle := steps.filterMap Step.issued?

end Registry

end MarketSignals
