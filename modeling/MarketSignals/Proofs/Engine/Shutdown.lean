import MarketSignals.Engine.Basic
import MarketSignals.Proofs.Registry.LastOutput

/-!
# After a shutdown

A shutdown removes every estimator, and an engine that is shut down does no work any
more.  Nothing that a host calls changes it, not even a second shutdown.  The calls
are refused with the error that says so; the one exception is the text of settings,
which is read before the engine looks whether it is shut down, so a text that is none
is refused for that.  Jobs that were handed over before still run, and find nothing.

Which order a shutdown visits the names in is not determined, as with clearing a
registry.

## Main definitions

* `Call`, `perform`, `Run` — what a host calls, and sequences of calls.
* `Call.Refused` — what is answered after a shutdown.
* `Down` — engines that are shut down and empty.

## Main results

* `Down.perform` — one call.
* `Down.run` — sequences of calls.
* `shutdown_refuses` — every engine that calls lead to.
-/

namespace MarketSignals

variable {ε : Type}

/-! ## Registries without estimators -/

namespace Registry

variable {r : Registry ε}

/-- No handle reaches anything. -/
def IsVacant (r : Registry ε) : Prop := ∀ h, r.arena.get? h = none

theorem IsVacant.slot_eq (hv : r.IsVacant) (h : Handle) : r.slot h = .error (staleError h) := by
  unfold slot
  rw [hv h]

theorem IsVacant.slotsOn_eq (hv : r.IsVacant) (i : InstrumentId) : r.slotsOn i = [] := by
  unfold slotsOn Arena.slotsOn
  rw [List.filterMap_eq_nil_iff]
  intro h _
  rw [hv h]
  rfl

theorem IsVacant.callSlot_eq (hv : r.IsVacant) {β : Type} (h : Handle)
    (call : ε → Except Fault β × ε) : r.callSlot h call = (.error (staleError h), r) := by
  unfold callSlot
  rw [hv.slot_eq]

theorem WellFormed.size_of_isVacant (wf : r.WellFormed) (hv : r.IsVacant) : r.size = 0 := by
  have hsize : r.size = r.arena.liveHandles.length := wf.arena.size_eq
  have hnone : r.arena.liveHandles = [] := by
    rw [List.eq_nil_iff_forall_not_mem]
    intro h hm
    obtain ⟨s, hs⟩ := wf.arena.mem_liveHandles_iff.mp hm
    rw [hv h] at hs
    cases hs
  rw [hsize, hnone]
  rfl

section

variable [Estimator ε]

/-- An event that reaches no estimator changes nothing, and there is nothing to report. -/
theorem IsVacant.dispatch_eq (hv : r.IsVacant) (event : MarketEvent) :
    r.dispatch event = ⟨{}, false, r⟩ := by
  unfold dispatch
  rw [hv.slotsOn_eq]
  rfl

/-- The rows of a batch reach no estimator either. -/
theorem IsVacant.runRows_eq (hv : r.IsVacant) (chunk : Nat) (cancel : Cancellation) (row : Nat)
    (requested : Bool) (events : List MarketEvent) :
    ∃ report, r.runRows chunk cancel row requested events = (report, r) ∧
      report.outputs = [] ∧ report.failures = [] := by
  induction events generalizing row requested with
  | nil => exact ⟨_, rfl, rfl, rfl⟩
  | cons event rest ih =>
      rw [runRows]
      split
      · exact ⟨_, rfl, rfl, rfl⟩
      · simp only [hv.dispatch_eq]
        obtain ⟨report, hrows, houtputs, hfailures⟩ := ih (row + 1) (requested || false)
        rw [hrows]
        refine ⟨_, rfl, ?_, ?_⟩
        · simpa [BatchReport.record] using houtputs
        · simpa [BatchReport.record] using hfailures

theorem IsVacant.runBatch_eq (hv : r.IsVacant) (b : Batch) (chunkSize : Nat)
    (cancel : Cancellation) :
    (∃ fault, r.runBatch b chunkSize cancel = (.error fault, r)) ∨
      ∃ report, r.runBatch b chunkSize cancel = (.ok report, r) ∧
        report.outputs = [] ∧ report.failures = [] := by
  unfold runBatch
  split
  · exact .inl ⟨_, rfl⟩
  · obtain ⟨report, hrows, hempty⟩ :=
      hv.runRows_eq (chunkLength chunkSize) cancel 0 false b.events
    rw [hrows]
    exact .inr ⟨report, rfl, hempty⟩

theorem IsVacant.loadReference_eq (hv : r.IsVacant) (h : Handle) (samples : List Float)
    (chunkSize : Nat) (cancel : Cancellation) :
    r.loadReference h samples chunkSize cancel = (.error (.ofEngine (staleError h)), r) := by
  unfold loadReference referenceBinning
  rw [hv.callSlot_eq]

end

end Registry

namespace Engine

/-! ## Calls -/

/-- A call by a host, or a job of one that runs. -/
inductive Call (ε : Type) where
  | register (alphaId : AlphaId) (instrumentId : InstrumentId) (config : AlphaConfig)
  | registerEstimator (alphaId : AlphaId) (instrumentId : InstrumentId) (estimator : ε)
  | registerText (alphaId : AlphaId) (instrumentId : InstrumentId) (text : String)
  | deregister (h : Handle)
  | reset (h : Handle)
  | rebase (h : Handle)
  | update (h : Handle) (event : MarketEvent)
  | dispatch (event : MarketEvent)
  | latest (h : Handle)
  | lookup (alphaId : AlphaId) (instrumentId : InstrumentId)
  | estimators (instrumentId : InstrumentId)
  | updateBatch (b : Batch)
  | submitBatch (runtime : Bool) (b : Batch)
  | loadReference (h : Handle) (samples : List Float)
  | submitReference (runtime : Bool) (h : Handle) (samples : List Float)
  | runBatchJob (job : BatchJob) (cancel : Cancellation)
  | runReferenceJob (job : ReferenceJob) (cancel : Cancellation)
  /-- Shut down, visiting the handles in the given order. -/
  | shutdown (order : List Handle)

/-- What a call gives back when it succeeds. -/
inductive Reply where
  | done
  | handle (h : Handle)
  | output (o : SignalOutput)
  | report (d : DispatchReport)
  | latest (o : Option SignalOutput)
  | infos (infos : List SlotInfo)
  | batch (b : BatchReport)
  | batchJob (job : BatchJob)
  | referenceJob (job : ReferenceJob)

/-- The answer to a call. -/
abbrev Answer := Except HostError Reply

/-- A shutdown that visits the handles in the given order. -/
def shutdownInOrder (e : Engine ε) (order : List Handle) : Engine ε :=
  if e.isShutDown then e
  else { e with registry := e.registry.clearInOrder order, isShutDown := true }

theorem shutdown_eq (e : Engine ε) :
    e.shutdown = e.shutdownInOrder e.registry.arena.liveHandles := rfl

section

variable [AlphaHost ε]

/-- The answer to a call, and the engine it leaves. -/
def perform (e : Engine ε) : Call ε → Answer × Engine ε
  | .register alphaId instrumentId config =>
      (e.register alphaId instrumentId config).map (·.map .handle) id
  | .registerEstimator alphaId instrumentId estimator =>
      (e.registerEstimator alphaId instrumentId estimator).map (·.map .handle) id
  | .registerText alphaId instrumentId text =>
      (e.registerText alphaId instrumentId text).map (·.map .handle) id
  | .deregister h => (e.deregister h).map (·.map fun _ => .done) id
  | .reset h => (e.reset h).map (·.map fun _ => .done) id
  | .rebase h => (e.rebase h).map (·.map fun _ => .done) id
  | .update h event => (e.update h event).map (·.map .output) id
  | .dispatch event => (e.dispatch event).map (·.map .report) id
  | .latest h => ((e.latest h).map .latest, e)
  | .lookup alphaId instrumentId => ((e.lookup alphaId instrumentId).map .handle, e)
  | .estimators instrumentId => ((e.estimators instrumentId).map .infos, e)
  | .updateBatch b => (e.updateBatch b).map (·.map .batch) id
  | .submitBatch runtime b => ((e.submitBatch runtime b).map .batchJob, e)
  | .loadReference h samples => (e.loadReference h samples).map (·.map fun _ => .done) id
  | .submitReference runtime h samples =>
      (e.submitReference runtime h samples).map (·.map .referenceJob) id
  | .runBatchJob job cancel => (e.runBatchJob job cancel).map (·.map .batch) id
  | .runReferenceJob job cancel => (e.runReferenceJob job cancel).map (·.map fun _ => .done) id
  | .shutdown order => (.ok .done, e.shutdownInOrder order)

end

/-- The calls that may be made: a shutdown visits every name once, and nothing else is
asked of any argument. -/
def Call.Allowed (e : Engine ε) : Call ε → Prop
  | .shutdown order => e.registry.arena.Visits order
  | _ => True

/-- A call of a run and its answer. -/
structure Step (ε : Type) where
  call : Call ε
  answer : Answer

/-- The steps of a run that leads from one engine to another. -/
inductive Run [AlphaHost ε] : Engine ε → List (Step ε) → Engine ε → Prop
  | nil (e : Engine ε) : Run e [] e
  | cons {e e' e'' : Engine ε} {c : Call ε} {a : Answer} {rest : List (Step ε)}
      (allowed : c.Allowed e) (performed : e.perform c = (a, e')) (tail : Run e' rest e'') :
      Run e (⟨c, a⟩ :: rest) e''

/-! ## One call after a shutdown -/

/-- What is answered to a call after a shutdown. -/
def Call.Refused : Call ε → Answer → Prop
  | .shutdown _, a => a = .ok .done
  | .registerText _ _ text, a =>
      a = .error (if (Codec.read? AlphaConfig text).isSome then shutDownError
        else malformedAlphaError)
  | .runBatchJob _ _, a =>
      (∃ error, a = .error error) ∨ ∃ b, a = .ok (.batch b) ∧ b.outputs = [] ∧ b.failures = []
  | .runReferenceJob job _, a => a = .error (.ofEngine (Registry.staleError job.handle))
  | _, a => a = .error shutDownError

/-- An engine that is shut down and has no estimators. -/
structure Down (e : Engine ε) : Prop where
  isShutDown : e.isShutDown = true
  isVacant : e.registry.IsVacant

variable {e e' : Engine ε}

theorem Down.call_eq (hd : e.Down) {β : Type}
    (f : Registry ε → Except HostError β × Registry ε) : e.call f = (.error shutDownError, e) :=
  if_pos hd.isShutDown

theorem Down.ask_eq (hd : e.Down) {β : Type} (f : Registry ε → Except EngineError β) :
    e.ask f = .error shutDownError :=
  if_pos hd.isShutDown

/-- Nothing changes an engine that is shut down. -/
theorem Down.perform [AlphaHost ε] (hd : e.Down) (c : Call ε) :
    (e.perform c).2 = e ∧ c.Refused (e.perform c).1 := by
  cases c with
  | latest | lookup | estimators =>
      simp only [Engine.perform, latest, lookup, estimators, hd.ask_eq]
      exact ⟨trivial, rfl⟩
  | submitBatch runtime b =>
      have hsubmit : e.submitBatch runtime b = .error shutDownError := if_pos hd.isShutDown
      simp only [Engine.perform, hsubmit]
      exact ⟨trivial, rfl⟩
  | registerText alphaId instrumentId text =>
      simp only [Engine.perform, registerText, Call.Refused]
      cases Codec.read? AlphaConfig text with
      | none => exact ⟨rfl, rfl⟩
      | some config =>
          simp only [register, hd.call_eq]
          exact ⟨rfl, rfl⟩
  | runBatchJob job cancel =>
      simp only [Engine.perform, runBatchJob]
      rcases hd.isVacant.runBatch_eq job.batch job.chunkSize cancel with
        ⟨fault, hrun⟩ | ⟨report, hrun, hempty⟩
      · rw [hrun]
        exact ⟨rfl, .inl ⟨_, rfl⟩⟩
      · rw [hrun]
        exact ⟨rfl, .inr ⟨report, rfl, hempty⟩⟩
  | runReferenceJob job cancel =>
      simp only [Engine.perform, runReferenceJob, hd.isVacant.loadReference_eq]
      exact ⟨rfl, rfl⟩
  | shutdown order => exact ⟨if_pos hd.isShutDown, rfl⟩
  | _ =>
      simp only [Engine.perform, register, registerEstimator, deregister, reset, rebase, update,
        dispatch, updateBatch, loadReference, submitReference, hd.call_eq]
      exact ⟨rfl, rfl⟩

/-- Nor does any sequence of calls. -/
theorem Down.run [AlphaHost ε] (hd : e.Down) {steps : List (Step ε)} (hr : Run e steps e') :
    e' = e ∧ ∀ step ∈ steps, step.call.Refused step.answer := by
  induction hr with
  | nil => exact ⟨rfl, fun step hm => by cases hm⟩
  | @cons e₀ e₁ e₂ c a rest _ performed _ ih =>
      obtain ⟨hleft, hanswer⟩ := hd.perform c
      rw [performed] at hleft hanswer
      obtain rfl : e₁ = e₀ := hleft
      obtain ⟨hrest, hanswers⟩ := ih hd
      refine ⟨hrest, fun step hm => ?_⟩
      rcases List.mem_cons.mp hm with rfl | hm
      · exact hanswer
      · exact hanswers step hm

/-! ## Engines that calls lead to -/

/-- The registry is well-formed, and empty once the engine is shut down. -/
structure Sound (e : Engine ε) : Prop where
  wellFormed : e.registry.WellFormed
  down : e.isShutDown = true → e.Down

theorem start_sound (batch : BatchConfig) (health : HealthConfig) :
    (start batch health : Engine ε).Sound where
  wellFormed := Registry.empty_logged.wellFormed
  down := fun h => by cases h

/-- A call on the registry keeps an engine sound if it keeps the registry well-formed. -/
theorem Sound.call (hs : e.Sound) {β : Type} (f : Registry ε → Except HostError β × Registry ε)
    (hf : (f e.registry).2.WellFormed) : (e.call f).2.Sound := by
  unfold Engine.call
  split
  · exact hs
  · next hup => exact ⟨hf, fun hdown => absurd hdown hup⟩

theorem wellFormed_registered {r : Registry ε} (wf : r.WellFormed) (operation : String)
    {x : Except Fault (Handle × Registry ε)}
    (hx : ∀ h r', x = .ok (h, r') → Registry.Enrols r h r') :
    (registered operation r x).2.WellFormed := by
  cases x with
  | ok p => exact (hx p.1 p.2 rfl).wellFormed wf
  | error fault => exact wf

theorem changes_loadReference [Estimator ε] (r : Registry ε) (h : Handle) (samples : List Float)
    (chunkSize : Nat) (cancel : Cancellation) :
    Registry.Changes r (r.loadReference h samples chunkSize cancel).2 := by
  unfold Registry.loadReference
  have hbins := Registry.changes_referenceBinning r h
  split
  · next heq =>
      rw [heq] at hbins
      exact hbins
  · next binning r' heq =>
      rw [heq] at hbins
      split
      · exact hbins
      · exact hbins.trans (Registry.changes_installReference r' h _)

/-- A shutdown leaves an engine that is shut down and empty. -/
theorem Sound.shutdownInOrder (hs : e.Sound) {order : List Handle}
    (hv : e.registry.arena.Visits order) :
    (e.shutdownInOrder order).Sound ∧ (e.shutdownInOrder order).Down := by
  unfold Engine.shutdownInOrder
  split
  · next hdown => exact ⟨hs, hs.down hdown⟩
  · have hdown : ({ e with registry := e.registry.clearInOrder order, isShutDown := true } :
        Engine ε).Down := ⟨rfl, hs.wellFormed.clearInOrder_empties hv⟩
    exact ⟨⟨(Registry.changes_clearInOrder e.registry order).wellFormed hs.wellFormed,
      fun _ => hdown⟩, hdown⟩

theorem Sound.perform [AlphaHost ε] (hs : e.Sound) {c : Call ε} (allowed : c.Allowed e) :
    (e.perform c).2.Sound := by
  have wf := hs.wellFormed
  by_cases hdown : e.isShutDown = true
  · rw [((hs.down hdown).perform c).1]
    exact hs
  have hup : ∀ {r : Registry ε}, r.WellFormed → ({ e with registry := r } : Engine ε).Sound :=
    fun wf => ⟨wf, fun h => absurd h hdown⟩
  cases c with
  | register alphaId i config =>
      show (e.register alphaId i config).2.Sound
      exact hs.call _ (wellFormed_registered wf _ fun _ _ => Registry.enrols_register)
  | registerEstimator alphaId i estimator =>
      show (e.registerEstimator alphaId i estimator).2.Sound
      exact hs.call _ (wellFormed_registered wf _ fun _ _ => Registry.enrols_registerEstimator)
  | registerText alphaId i text =>
      show (e.registerText alphaId i text).2.Sound
      unfold registerText
      split
      · exact hs
      · exact hs.call _ (wellFormed_registered wf _ fun _ _ => Registry.enrols_register)
  | deregister h =>
      show (e.deregister h).2.Sound
      refine hs.call _ ?_
      split
      · next hremoved => exact (Registry.changes_deregister hremoved).wellFormed wf
      · exact wf
  | reset h =>
      show (e.reset h).2.Sound
      exact hs.call _ ((Registry.changes_reset e.registry h).wellFormed wf)
  | rebase h =>
      show (e.rebase h).2.Sound
      exact hs.call _ ((Registry.changes_rebase e.registry h).wellFormed wf)
  | update h event =>
      show (e.update h event).2.Sound
      exact hs.call _ ((Registry.changes_update e.registry h event).wellFormed wf)
  | dispatch event =>
      show (e.dispatch event).2.Sound
      exact hs.call _ ((Registry.changes_dispatch e.registry event).wellFormed wf)
  | latest | lookup | estimators | submitBatch => exact hs
  | updateBatch b =>
      show (e.updateBatch b).2.Sound
      exact hs.call _ ((Registry.changes_runBatch rfl).wellFormed wf)
  | loadReference h samples =>
      show (e.loadReference h samples).2.Sound
      exact hs.call _ ((changes_loadReference e.registry h samples _ _).wellFormed wf)
  | submitReference runtime h samples =>
      show (e.submitReference runtime h samples).2.Sound
      refine hs.call _ ?_
      have hbins := (Registry.changes_referenceBinning e.registry h).wellFormed wf
      split
      · next heq =>
          rw [heq] at hbins
          exact hbins
      · next heq =>
          rw [heq] at hbins
          split <;> exact hbins
  | runBatchJob job cancel =>
      exact hup ((Registry.changes_runBatch rfl).wellFormed wf)
  | runReferenceJob job cancel =>
      exact hup ((changes_loadReference e.registry job.handle job.samples _ _).wellFormed wf)
  | shutdown order => exact (hs.shutdownInOrder allowed).1

theorem Sound.run [AlphaHost ε] (hs : e.Sound) {steps : List (Step ε)} (hr : Run e steps e') :
    e'.Sound := by
  induction hr with
  | nil => exact hs
  | @cons e₀ e₁ e₂ c a rest allowed performed _ ih =>
      have hnext := hs.perform allowed
      rw [performed] at hnext
      exact ih hnext

/-- An engine that is built from settings is one that registrations lead to. -/
theorem run_of_ofConfig [AlphaHost ε] {c : EngineConfig} (ho : ofConfig c = .ok e) :
    ∃ steps, Run (start c.batch c.health) steps e := by
  have hall : ∀ (registrations : List RegistrationConfig) (e₀ : Engine ε),
      e₀.registerAll registrations = .ok e → ∃ steps, Run e₀ steps e := by
    intro registrations
    induction registrations with
    | nil =>
        intro e₀ h
        cases h
        exact ⟨[], .nil _⟩
    | cons config rest ih =>
        intro e₀ h
        unfold registerAll at h
        split at h
        · next handle e₁ heq =>
            obtain ⟨steps, hrest⟩ := ih e₁ h
            have hregister : e₀.perform (.register ⟨config.alphaId⟩ ⟨config.instrumentId⟩
                config.config) = (.ok (.handle handle), e₁) := by
              simp only [Engine.perform, heq]
              rfl
            have allowed : (Call.register ⟨config.alphaId⟩ ⟨config.instrumentId⟩
              config.config).Allowed e₀ := trivial
            exact ⟨_, .cons allowed hregister hrest⟩
        · cases h
  unfold ofConfig at ho
  split at ho
  · cases ho
  · exact hall _ _ ho

/-- After a shutdown an engine refuses everything.  Whatever calls have led to it, and
in whatever order the shutdown visits the names, no estimator is left, the engine is not
healthy, and no sequence of further calls changes it, shutdowns among them.  Each call
is refused with the error of an engine that is shut down, except for a text that is not
one of settings, which is refused as such.  A batch that was handed over before gives no
output and no failure. -/
theorem shutdown_refuses [AlphaHost ε] {batch : BatchConfig} {health : HealthConfig}
    {steps : List (Step ε)} (hr : Run (start batch health) steps e) {order : List Handle}
    (hv : e.registry.arena.Visits order) :
    let down := e.shutdownInOrder order
    down.registry.IsVacant ∧ down.registry.size = 0 ∧ down.isHealthy = false ∧
      ∀ more e', Run down more e' →
        e' = down ∧ ∀ step ∈ more, step.call.Refused step.answer := by
  obtain ⟨hsound, hdown⟩ := ((start_sound batch health).run hr).shutdownInOrder hv
  refine ⟨hdown.isVacant, hsound.wellFormed.size_of_isVacant hdown.isVacant, ?_, ?_⟩
  · unfold isHealthy
    rw [hdown.isShutDown]
    rfl
  · exact fun more e' hmore => hdown.run hmore

theorem shutdown_refuses_registered :
    ∃ steps e, Run (start {} {} : Engine Alpha) steps e ∧
      e.registry.arena.Visits e.registry.arena.liveHandles ∧
      steps.map (·.call) = [.register ⟨"a"⟩ ⟨"X"⟩ (.ofi { marketCap := 1 })] ∧
      e.shutdown.registry.IsVacant ∧ e.shutdown.isHealthy = false ∧
      ∀ more e', Run e.shutdown more e' → e' = e.shutdown := by
  have hrun : Run (start {} {} : Engine Alpha)
      [⟨.register ⟨"a"⟩ ⟨"X"⟩ (.ofi { marketCap := 1 }), _⟩] _ :=
    .cons trivial rfl (.nil _)
  have hv := ((start_sound {} {}).run hrun).wellFormed.visits_liveHandles
  obtain ⟨hvacant, _, hhealthy, hmore⟩ := shutdown_refuses hrun hv
  exact ⟨_, _, hrun, hv, rfl, hvacant, hhealthy, fun more e' h => (hmore more e' h).1⟩

/-- The error of an engine that is shut down is not all that a registration from a text
gives: the text is read first. -/
theorem shutdown_reads_text :
    ¬ ∀ (e : Engine Alpha) (steps : List (Step Alpha)), Run (start {} {}) steps e →
      ∀ alphaId i text, (e.shutdown.registerText alphaId i text).1 = .error shutDownError := by
  intro hall
  have hanswer := hall _ [] (.nil _) ⟨"a"⟩ ⟨"X"⟩ "\x7b"
  have hread : Codec.read? AlphaConfig "\x7b" = none := by rfl
  unfold registerText at hanswer
  rw [hread] at hanswer
  cases hanswer

end Engine

end MarketSignals
