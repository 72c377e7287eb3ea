import MarketSignals.Proofs.Registry.Failure
import MarketSignals.Proofs.Registry.Turns

/-!
# The engine's estimators among others

An estimator that comes with the engine makes no request, so what is around matters
to it no more than to an estimator that is alone.  As long as it is registered, it
gives what its cell gives by itself for the things that concern it, though others may
be removed, and it may be removed itself, while they run.

The estimators around may be of any kind; the engine's are found among them through
`AlphaHost.ofAlpha`.

## Main definitions

* `LawfulAlphaHost` — types of estimators that hold the engine's as they are.
* `Cell.host` — a cell of the engine's estimators as one among others.
* `Stays` — a run that a registration lives through.
* `Tenure` — the run from a registration with settings on.

## Main results

* `Cell.respondIn_host` — what is around does not matter.
* `Stays.observed_eq` — a whole run.
-/

namespace MarketSignals

/-- The engine's estimators act as themselves among those of a host. -/
class LawfulAlphaHost (ε : Type) [AlphaHost ε] : Prop where
  kind_ofAlpha : ∀ a : Alpha, Estimator.kind (AlphaHost.ofAlpha a : ε) = Estimator.kind a
  requiredFields_ofAlpha : ∀ a : Alpha,
    Estimator.requiredFields (AlphaHost.ofAlpha a : ε) = Estimator.requiredFields a
  update_ofAlpha : ∀ (a : Alpha) (event : MarketEvent),
    Estimator.update (AlphaHost.ofAlpha a : ε) event =
      (Estimator.update a event).map AlphaHost.ofAlpha
  reset_ofAlpha : ∀ a : Alpha,
    Estimator.reset (AlphaHost.ofAlpha a : ε) = (Estimator.reset a).map id AlphaHost.ofAlpha
  rebase_ofAlpha : ∀ a : Alpha,
    Estimator.rebase (AlphaHost.ofAlpha a : ε) = (Estimator.rebase a).map id AlphaHost.ofAlpha
  referenceBinning_ofAlpha : ∀ a : Alpha,
    Estimator.referenceBinning (AlphaHost.ofAlpha a : ε) = Estimator.referenceBinning a
  installReference_ofAlpha : ∀ (a : Alpha) (counts : List Nat),
    Estimator.installReference (AlphaHost.ofAlpha a : ε) counts =
      (Estimator.installReference a counts).map id AlphaHost.ofAlpha

instance : LawfulAlphaHost Alpha where
  kind_ofAlpha _ := rfl
  requiredFields_ofAlpha _ := rfl
  update_ofAlpha _ _ := rfl
  reset_ofAlpha _ := rfl
  rebase_ofAlpha _ := rfl
  referenceBinning_ofAlpha _ := rfl
  installReference_ofAlpha _ _ := rfl

instance {η : Type} [Estimator η] : LawfulAlphaHost (Alpha ⊕ η) where
  kind_ofAlpha _ := rfl
  requiredFields_ofAlpha _ := rfl
  update_ofAlpha _ _ := rfl
  reset_ofAlpha _ := rfl
  rebase_ofAlpha _ := rfl
  referenceBinning_ofAlpha _ := rfl
  installReference_ofAlpha _ _ := rfl

variable {ε : Type}

/-- The cell that a list of things leaves one after the other. -/
def Cell.after [Estimator ε] (c : Cell ε) (ks : List Concern) : Cell ε :=
  ks.foldl (fun c k => (c.respond k).2) c

variable [AlphaHost ε]

/-! ## One estimator among others -/

/-- A slot of the engine's estimators as one among others. -/
def Slot.host (s : Slot Alpha) : Slot ε where
  alphaId := s.alphaId
  instrumentId := s.instrumentId
  kind := s.kind
  requiredFields := s.requiredFields
  estimator := AlphaHost.ofAlpha s.estimator
  disabled := s.disabled

/-- A cell of the engine's estimators as one among others. -/
def Cell.host (c : Cell Alpha) : Cell ε := ⟨c.slot.host, c.latest⟩

/-- The slot of an estimator that is newly registered. -/
def freshSlot (k : SlotKey) (a : Alpha) : Slot Alpha where
  alphaId := k.alphaId
  instrumentId := k.instrumentId
  kind := a.kind
  requiredFields := a.requiredFields
  estimator := a
  disabled := false

/-- The cell of an estimator that is newly registered. -/
def freshCell (k : SlotKey) (a : Alpha) : Cell Alpha := ⟨freshSlot k a, none⟩

theorem Slot.absorb_host {β : Type} (s : Slot Alpha) (p : Except Fault β × Alpha) :
    (s.host : Slot ε).absorb (p.map id AlphaHost.ofAlpha) = (s.absorb p).map id Slot.host := by
  obtain ⟨result, a⟩ := p
  cases result with
  | ok x => rfl
  | error fault => cases fault <;> rfl

/-- A call through a slot goes the same way wherever the slot is. -/
theorem Slot.guarded_host {β : Type} (s : Slot Alpha) {f : Alpha → Except Fault β × Alpha}
    {g : ε → Except Fault β × ε}
    (hfg : g (AlphaHost.ofAlpha s.estimator) = (f s.estimator).map id AlphaHost.ofAlpha) :
    (s.host : Slot ε).guarded g = (s.guarded f).map id Slot.host := by
  unfold guarded
  show (if s.disabled = true then _ else s.host.absorb (g (AlphaHost.ofAlpha s.estimator))) = _
  rw [hfg, absorb_host]
  split <;> rfl

theorem Slot.reset_host [LawfulAlphaHost ε] (s : Slot Alpha) :
    (s.host : Slot ε).reset = s.reset.map id Slot.host := by
  unfold reset
  rw [show (s.host : Slot ε).estimator = AlphaHost.ofAlpha s.estimator from rfl,
    LawfulAlphaHost.reset_ofAlpha]
  rfl

namespace Cell

theorem through_host {β : Type} (c : Cell Alpha) {f : Alpha → Except Fault β × Alpha}
    {g : ε → Except Fault β × ε}
    (hfg : g (AlphaHost.ofAlpha c.slot.estimator) =
      (f c.slot.estimator).map id AlphaHost.ofAlpha) :
    (c.host : Cell ε).through g = (c.through f).map id Cell.host := by
  unfold through
  rw [show (c.host : Cell ε).slot = c.slot.host from rfl, c.slot.guarded_host hfg]
  rfl

variable [LawfulAlphaHost ε]

theorem binningOf_ofAlpha (a : Alpha) :
    binningOf (AlphaHost.ofAlpha a : ε) = (binningOf a).map id AlphaHost.ofAlpha := by
  unfold binningOf
  rw [LawfulAlphaHost.referenceBinning_ofAlpha, LawfulAlphaHost.kind_ofAlpha]
  cases Estimator.referenceBinning a with
  | error panic => rfl
  | ok binning? => cases binning? <;> rfl

theorem reset_host (c : Cell Alpha) :
    (c.host : Cell ε).reset = c.reset.map id Cell.host := by
  unfold Cell.reset
  rw [show (c.host : Cell ε).slot = c.slot.host from rfl, Slot.reset_host]
  rfl

/-- Calls that feed no event. -/
theorem act_host (c : Cell Alpha) {t : Touch} (ht : ∀ event, t ≠ .update event) :
    (c.host : Cell ε).act t = (c.act t).map id Cell.host := by
  cases t with
  | update event => exact absurd rfl (ht event)
  | reset =>
      show (c.host : Cell ε).reset.map _ _ = _
      rw [reset_host]
      rfl
  | rebase =>
      show ((c.host : Cell ε).through Estimator.rebase).map _ _ = _
      rw [c.through_host (LawfulAlphaHost.rebase_ofAlpha c.slot.estimator)]
      rfl
  | referenceBinning =>
      show ((c.host : Cell ε).through binningOf).map _ _ = _
      rw [c.through_host (binningOf_ofAlpha c.slot.estimator)]
      rfl
  | installReference counts =>
      show ((c.host : Cell ε).through (Estimator.installReference · counts)).map _ _ = _
      rw [c.through_host (f := (Estimator.installReference · counts))
        (LawfulAlphaHost.installReference_ofAlpha c.slot.estimator counts)]
      rfl
  | latest => rfl

/-- An update of one of the engine's estimators ends the same wherever it is. -/
theorem ending_ofAlpha (r : Registry ε) (a : Alpha) (event : MarketEvent) :
    r.ending (AlphaHost.ofAlpha a) event = (a.update event).map id AlphaHost.ofAlpha := by
  unfold Registry.ending
  rw [LawfulAlphaHost.update_ofAlpha]
  rfl

theorem feedIn_host (r : Registry ε) (c : Cell Alpha) (event : MarketEvent) :
    (c.host : Cell ε).feedIn r event = (c.feed event).map id Cell.host := by
  have habsorb : (c.host : Cell ε).slot.absorb (r.ending (c.host : Cell ε).slot.estimator event) =
      (c.slot.absorb (c.slot.estimator.update event)).map id Slot.host := by
    rw [← Slot.absorb_host, ← ending_ofAlpha r]
    rfl
  rw [feedIn_eq, habsorb]
  unfold feed
  rw [outcome_update]
  show (if c.slot.disabled = true then _ else _) = _
  split
  · rfl
  · cases c.slot.absorb (c.slot.estimator.update event) with
    | mk result slot => cases result <;> rfl

/-- What is around does not matter to the engine's estimators. -/
theorem respondIn_host (r : Registry ε) (c : Cell Alpha) (k : Concern) :
    (c.host : Cell ε).respondIn r k = (c.respond k).map id Cell.host := by
  cases k with
  | event event =>
      show (if c.slot.accepts event then ((c.host : Cell ε).feedIn r event).map some id
        else (none, c.host)).map Result.part id = _
      rw [feedIn_host]
      show _ = ((if c.slot.accepts event then (c.feed event).map some id
        else (none, c)).map Result.part id).map id Cell.host
      split <;> rfl
  | touch t =>
      show (@act ε r.settledIn c.host t).map Result.answer id = _
      by_cases ht : ∃ event, t = .update event
      · obtain ⟨event, rfl⟩ := ht
        show ((@update ε r.settledIn c.host event).map _ id).map Result.answer id = _
        have hupdate : @update ε r.settledIn c.host event = (c.update event).map id Cell.host := by
          have hfeed := feedIn_host r c event
          unfold feedIn at hfeed
          unfold Cell.update
          rw [hfeed]
          show (if event.instrumentId ≠ c.slot.instrumentId then _
            else if (!c.slot.accepts event) = true then _ else _) = _
          split
          · rfl
          · split <;> rfl
        rw [hupdate]
        rfl
      · have hne : ∀ event, t ≠ .update event := fun event heq => ht ⟨event, heq⟩
        rw [act_settledIn r _ hne, act_host c hne]
        rfl

end Cell

namespace Registry

variable {r r' r'' : Registry ε} {h : Handle} {steps : List (Step ε)}

/-! ## Runs that a registration lives through -/

/-- A run that a registration lives through: it is there before every call. -/
inductive Stays (h : Handle) : Registry ε → List (Step ε) → Registry ε → Prop
  | nil (r : Registry ε) : Stays h r [] r
  | cons {r r' r'' : Registry ε} {call : Call ε} {a : Answer} {rest : List (Step ε)}
      (live : ∃ c, r.cell? h = some c) (allowed : call.Allowed r)
      (performed : r.perform call = (a, r')) (tail : Stays h r' rest r'') :
      Stays h r (⟨call, a⟩ :: rest) r''

namespace Stays

/-- It is a run of the registry; `Run.stays` is the converse. -/
theorem run (hs : Stays h r steps r') : Run r steps r' := by
  induction hs with
  | nil r => exact .nil r
  | cons _ allowed performed _ ih => exact .cons allowed performed ih

/-- What is there in the end was there in the beginning. -/
theorem live (hs : Stays h r steps r') (hlive : ∃ c, r'.cell? h = some c) :
    ∃ c, r.cell? h = some c := by
  cases hs with
  | nil => exact hlive
  | cons live _ _ _ => exact live

end Stays

/-- A registration lives through a run in which its handle is not given out, if it is
there in the end. -/
theorem Run.stays (wf : r.WellFormed) (hr : Run r steps r') (hold : h ∉ issued steps)
    (hlive : ∃ c, r'.cell? h = some c) : Stays h r steps r' := by
  induction hr with
  | nil r => exact .nil r
  | @cons r r₁ r₂ call a rest allowed performed _ ih =>
      have hrest : h ∉ issued rest := by
        intro hm
        refine hold ?_
        obtain ⟨step, hstep, hissued⟩ := List.mem_filterMap.mp hm
        exact List.mem_filterMap.mpr ⟨step, List.mem_cons_of_mem _ hstep, hissued⟩
      have hanswer : a ≠ .ok (.handle h) := by
        intro heq
        exact hold (List.mem_filterMap.mpr ⟨_, List.mem_cons_self, Step.issued?_eq_some_iff.mpr heq⟩)
      have htail := ih (perform_wellFormed wf performed) hrest hlive
      obtain ⟨c, hc⟩ := htail.live hlive
      exact .cons (cell?_before wf performed hanswer hc) allowed performed htail

theorem Stays.wellFormed (wf : r.WellFormed) (hs : Stays h r steps r') : r'.WellFormed := by
  induction hs with
  | nil => exact wf
  | cons _ _ performed _ ih => exact ih (perform_wellFormed wf performed)

/-- Where no estimator makes requests, a registration lives through all calls that do
not remove it. -/
theorem stays_performAll [Solitary ε] {c : Cell ε} (wf : r.WellFormed) (hc : r.cell? h = some c)
    (calls : List (Call ε)) (hkept : ∀ call ∈ calls, ¬ call.Removes h) :
    Stays h r (r.performAll calls).1 (r.performAll calls).2 ∧
      ∃ d, (r.performAll calls).2.cell? h = some d := by
  induction calls generalizing r c with
  | nil => exact ⟨.nil r, c, hc⟩
  | cons call rest ih =>
      have hcall := hkept call List.mem_cons_self
      have allowed : call.Allowed r := by
        cases call with
        | clear order => exact absurd trivial hcall
        | _ => trivial
      have hlives : ∃ d, (r.perform call).2.cell? h = some d := by
        have hconcern := perform_concern wf hc (a := (r.perform call).1) rfl hcall
        split at hconcern
        · exact ⟨_, hconcern.2⟩
        · exact ⟨c, hconcern⟩
      obtain ⟨d, hd⟩ := hlives
      obtain ⟨hstays, hlive⟩ := ih (perform_wellFormed (a := (r.perform call).1) wf rfl) hd
        fun call' hm => hkept call' (List.mem_cons_of_mem _ hm)
      exact ⟨.cons ⟨c, hc⟩ allowed rfl hstays, hlive⟩

section

variable {alphaId : AlphaId} {i : InstrumentId} {step : Step ε} {k : Concern}

omit [AlphaHost ε] in
theorem concerns_eq (h : Handle) (i : InstrumentId) (steps : List (Step ε)) :
    concerns h i steps = (steps.map (·.call)).filterMap (Call.concern? h i) := by
  rw [List.filterMap_map]
  rfl

omit [AlphaHost ε] in
theorem concerns_cons_of_none (hk : step.call.concern? h i = none) :
    concerns h i (step :: steps) = concerns h i steps := List.filterMap_cons_none hk

omit [AlphaHost ε] in
theorem concerns_cons_of_some (hk : step.call.concern? h i = some k) :
    concerns h i (step :: steps) = k :: concerns h i steps := List.filterMap_cons_some hk

omit [AlphaHost ε] in
theorem observed_cons_of_none (hk : step.call.concern? h i = none) :
    observed h alphaId i (step :: steps) = observed h alphaId i steps :=
  List.filterMap_cons_none (by rw [hk, Option.map_none])

omit [AlphaHost ε] in
theorem observed_cons_of_some (hk : step.call.concern? h i = some k) :
    observed h alphaId i (step :: steps) =
      (k, step.result h alphaId) :: observed h alphaId i steps :=
  List.filterMap_cons_some (by rw [hk, Option.map_some])

end

/-- As long as it is registered, one of the engine's estimators gives what its cell
gives by itself, and leaves what its cell leaves. -/
theorem Stays.observed_eq [LawfulAlphaHost ε] {c : Cell Alpha} (wf : r.WellFormed)
    (hs : Stays h r steps r') (hc : ∀ d, r.cell? h = some d → d = c.host) :
    observed h c.slot.alphaId c.slot.instrumentId steps =
        c.replay (concerns h c.slot.instrumentId steps) ∧
      ∀ d, r'.cell? h = some d → d = (c.after (concerns h c.slot.instrumentId steps)).host := by
  induction hs generalizing c with
  | nil => exact ⟨rfl, hc⟩
  | @cons r r₁ r₂ call a rest live allowed performed _ ih =>
      obtain ⟨d, hd⟩ := live
      obtain rfl := hc d hd
      have wf₁ := perform_wellFormed wf performed
      cases hk : (Step.mk call a).call.concern? h c.slot.instrumentId with
      | none =>
          rw [observed_cons_of_none hk, concerns_cons_of_none hk]
          exact ih wf₁ fun d' hd' => perform_unconcerned wf allowed performed hd hk hd'
      | some k =>
          obtain ⟨hresult, hleft⟩ := perform_concerned wf performed hd hk
          rw [Cell.respondIn_host] at hresult hleft
          have hkey := Cell.key_respond c k
          have halpha : (c.respond k).2.slot.alphaId = c.slot.alphaId :=
            congrArg SlotKey.alphaId hkey
          have hinstrument : (c.respond k).2.slot.instrumentId = c.slot.instrumentId :=
            congrArg SlotKey.instrumentId hkey
          have hrest := ih (c := (c.respond k).2) wf₁ hleft
          rw [halpha, hinstrument] at hrest
          have hfirst : (Step.mk call a).result h c.slot.alphaId = (c.respond k).1 := hresult
          rw [observed_cons_of_some hk, concerns_cons_of_some hk, hfirst, hrest.1]
          exact ⟨rfl, hrest.2⟩

/-! ## From the registration on -/

/-- A run from the registration of settings on, as long as the registration is there. -/
structure Tenure (config : AlphaConfig) (k : SlotKey) (h : Handle) (steps : List (Step ε))
    (r : Registry ε) : Prop where
  lived : ∃ before r₁ r₀, Run (.empty : Registry ε) before r₁ ∧
    r₁.register k.alphaId k.instrumentId config = .ok (h, r₀) ∧ Stays h r₀ steps r

variable {config : AlphaConfig} {k : SlotKey} {fresh : Alpha}

/-- A registration of settings starts from the estimator that they build. -/
theorem cell?_register [LawfulAlphaHost ε] (wf : r.WellFormed) (hb : config.build = .ok fresh)
    (hr : r.register k.alphaId k.instrumentId config = .ok (h, r')) :
    r'.WellFormed ∧ r'.cell? h = some (freshCell k fresh).host := by
  unfold Registry.register at hr
  rw [hb] at hr
  obtain ⟨s, hs, hcell⟩ := cell?_registerEstimator wf hr
  refine ⟨(enrols_registerEstimator hr).wellFormed wf, ?_⟩
  unfold Slot.of at hs
  rw [LawfulAlphaHost.requiredFields_ofAlpha, LawfulAlphaHost.kind_ofAlpha] at hs
  cases hs
  exact hcell

/-- Settings that were registered are accepted. -/
theorem Tenure.exists_build (ht : Tenure config k h steps r) :
    ∃ fresh, config.build = .ok fresh := by
  obtain ⟨before, r₁, r₀, _, hreg, _⟩ := ht.lived
  obtain ⟨fresh, hb, _⟩ := bind_eq_ok_iff.mp hreg
  exact ⟨fresh, mapError_eq_ok_iff.mp hb⟩

/-- A tenure ends in a state that calls on the empty registry lead to. -/
theorem Tenure.run (ht : Tenure config k h steps r) :
    ∃ all, Run (.empty : Registry ε) all r := by
  obtain ⟨before, r₁, r₀, hbefore, hreg, hstays⟩ := ht.lived
  have hregister : r₁.perform (.register k.alphaId k.instrumentId config) = (.ok (.handle h), r₀) := by
    show r₁.enrolled _ = _
    rw [hreg]
    rfl
  have allowed : (Call.register k.alphaId k.instrumentId config).Allowed r₁ := trivial
  exact ⟨_, hbefore.append (.cons allowed hregister hstays.run)⟩

/-- A tenure shows what the cell of a new registration gives and leaves. -/
theorem Tenure.observed_eq [LawfulAlphaHost ε] (ht : Tenure config k h steps r)
    (hb : config.build = .ok fresh) :
    r.WellFormed ∧
      observed h k.alphaId k.instrumentId steps =
        (freshCell k fresh).replay (concerns h k.instrumentId steps) ∧
      ∀ d, r.cell? h = some d →
        d = ((freshCell k fresh).after (concerns h k.instrumentId steps)).host := by
  obtain ⟨before, r₁, r₀, hbefore, hreg, hstays⟩ := ht.lived
  obtain ⟨wf₀, hcell⟩ := cell?_register (empty_logged.run hbefore).wellFormed hb hreg
  refine ⟨hstays.wellFormed wf₀, hstays.observed_eq (c := freshCell k fresh) wf₀ ?_⟩
  intro d hd
  rw [hcell] at hd
  exact (Option.some.inj hd).symm

/-- In a history of operations, batches among them, a registration has the tenure of
the calls that they come to. -/
theorem Course.tenure {before ops : List (Operation ε)} (hbefore : Course .empty before r)
    (hr : r.register k.alphaId k.instrumentId config = .ok (h, r')) (hafter : Course r' ops r'')
    (hold : h ∉ issued (r'.unrolled ops)) (hlive : ∃ c, r''.cell? h = some c) :
    Tenure config k h (r'.unrolled ops) r'' := by
  have wf : r'.WellFormed := by
    have wf₀ := (empty_logged.run hbefore.unroll).wellFormed
    obtain ⟨alpha, _, henrols⟩ := bind_eq_ok_iff.mp hr
    exact (enrols_registerEstimator henrols).wellFormed wf₀
  exact ⟨_, _, _, hbefore.unroll, hr, hafter.unroll.stays wf hold hlive⟩

/-- Settings that are accepted can be registered in the empty registry, and any calls
that do not remove it may follow. -/
theorem exists_tenure {config : AlphaConfig} {fresh : Alpha} (hb : config.build = .ok fresh)
    (k : SlotKey) (calls : List (Call Alpha)) (hkept : ∀ call ∈ calls, ¬ call.Removes ⟨0, 0⟩) :
    ∃ steps r, Tenure config k ⟨0, 0⟩ steps r ∧ steps.map (·.call) = calls ∧
      ∃ c : Cell Alpha, r.cell? ⟨0, 0⟩ = some c := by
  obtain ⟨r₀, hr⟩ := registerEstimator_empty k.alphaId k.instrumentId fresh
  have hreg : (empty : Registry Alpha).register k.alphaId k.instrumentId config =
      .ok (⟨0, 0⟩, r₀) := by
    unfold Registry.register
    rw [hb]
    exact hr
  obtain ⟨wf₀, hcell⟩ := cell?_register empty_logged.wellFormed hb hreg
  obtain ⟨hstays, hlive⟩ := stays_performAll wf₀ hcell calls hkept
  exact ⟨_, _, ⟨[], .empty, r₀, .nil _, hreg, hstays⟩, map_call_performAll r₀ calls, hlive⟩

end Registry

end MarketSignals
