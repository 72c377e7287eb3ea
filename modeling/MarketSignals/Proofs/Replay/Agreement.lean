import MarketSignals.Proofs.Batch.Packing
import MarketSignals.Proofs.Batch.Rows
import MarketSignals.Proofs.Engine.Loading
import MarketSignals.Proofs.Float.Infinite
import MarketSignals.Proofs.Json.RoundTrip
import MarketSignals.Replay.Run

/-!
# A replay is the dispatches of its events

A replay of a log puts out what its events give when they are dispatched one by one on an
engine with the same settings.  What it does follows from the events that the log holds up
to the first line that is neither blank nor an event (`eventsOf`): blank lines come to
nothing, a longer log has more events, and whether outputs of estimators that warm up are
printed is decided at the end.  Events of one instrument in order of time might as well
have come as one batch.

## Main definitions

* `Logs` — the lines of a log that are not blank are the texts of events.
* `recorded` — the outcome of a replay of given settings and lines.
* `Transcript.Replays` — what becomes of a transcript over events.

## Main results

* `Transcript.run_replays` — the run over the lines of a log.
* `replay_is_dispatches` — what is printed, for every log, and for longer ones.
-/

namespace MarketSignals

/-! ## Events one after the other on an engine -/

section

variable {ε : Type} [Estimator ε]

/-- What comes of dispatching events one after the other. -/
def Engine.dispatchEach (e : Engine ε) : List MarketEvent → List (Except HostError DispatchReport)
  | [] => []
  | event :: rest => (e.dispatch event).1 :: (e.dispatch event).2.dispatchEach rest

theorem Engine.dispatch_of_up {e : Engine ε} (hup : e.isShutDown = false) (event : MarketEvent) :
    e.dispatch event = (.ok (e.registry.dispatch event).report,
      { e with registry := (e.registry.dispatch event).registry }) := by
  unfold dispatch call
  rw [hup]
  rfl

/-- An engine that takes calls dispatches what its registry dispatches. -/
theorem Engine.dispatchEach_of_up {e : Engine ε} (hup : e.isShutDown = false)
    (events : List MarketEvent) :
    e.dispatchEach events = (e.registry.dispatchEach events).map fun d => .ok d.report := by
  induction events generalizing e with
  | nil => rfl
  | cons event rest ih =>
      rw [dispatchEach, dispatch_of_up hup, Registry.dispatchEach, List.map_cons]
      exact congrArg _ (ih hup)

theorem Registry.dispatchEach_append (r : Registry ε) (first rest : List MarketEvent) :
    r.dispatchEach (first ++ rest) =
      r.dispatchEach first ++ (r.afterEach first).dispatchEach rest := by
  induction first generalizing r with
  | nil => rfl
  | cons event first ih =>
      rw [List.cons_append, dispatchEach, ih]
      rfl

end

theorem Engine.up_of_ofConfig {ε : Type} [AlphaHost ε] [LawfulAlphaHost ε] {c : EngineConfig}
    {e : Engine ε} (he : ofConfig c = .ok e) : e.isShutDown = false := by
  have hloading := loading_ofConfig (ε := ε) c
  rw [he] at hloading
  cases hloading with
  | loaded _ _ _ _ _ settings => simpa [isHealthy] using settings.2.2

namespace Replay

/-! ## Logs -/

/-- Whether a line is passed over. -/
def isBlank : Line → Bool
  | some text => isBlankLine text
  | none => false

/-- The event that a line is the text of. -/
def event? (line : Line) : Option MarketEvent := line.bind (Codec.read? MarketEvent)

/-- The lines of a log that are not blank are the texts of events. -/
def Logs (lines : List Line) (events : List MarketEvent) : Prop :=
  (lines.filter fun line => !isBlank line).map event? = events.map some

/-- The events of lines, up to the first that is neither blank nor the text of an event. -/
def eventsOf : List Line → List MarketEvent
  | [] => []
  | line :: rest =>
      if isBlank line then eventsOf rest
      else
        match event? line with
        | none => []
        | some event => event :: eventsOf rest

variable {lines : List Line} {line : Line} {events : List MarketEvent} {event : MarketEvent}

theorem eventsOf_of_blank (hblank : isBlank line = true) :
    eventsOf (line :: lines) = eventsOf lines := if_pos hblank

theorem eventsOf_of_fault (hblank : isBlank line = false) (hevent : event? line = none) :
    eventsOf (line :: lines) = [] := by
  unfold eventsOf
  rw [hblank, hevent]
  rfl

theorem eventsOf_of_event (hblank : isBlank line = false) (hevent : event? line = some event) :
    eventsOf (line :: lines) = event :: eventsOf lines := by
  conv_lhs => unfold eventsOf
  rw [hblank, hevent]
  rfl

theorem logs_of_blank (hblank : isBlank line = true) :
    Logs (line :: lines) events ↔ Logs lines events := by
  unfold Logs
  rw [List.filter_cons_of_neg (by simp [hblank])]

theorem logs_of_not_blank (hblank : isBlank line = false) :
    Logs (line :: lines) events ↔
      ∃ event rest, events = event :: rest ∧ event? line = some event ∧ Logs lines rest := by
  unfold Logs
  rw [List.filter_cons_of_pos (by simp [hblank]), List.map_cons, eq_comm, List.map_eq_cons_iff]
  constructor
  · rintro ⟨event, rest, rfl, hevent, hrest⟩
    exact ⟨event, rest, rfl, hevent.symm, hrest.symm⟩
  · rintro ⟨event, rest, rfl, hevent, hrest⟩
    exact ⟨event, rest, rfl, hevent.symm, hrest.symm⟩

theorem Logs.eventsOf_eq (h : Logs lines events) : eventsOf lines = events := by
  induction lines generalizing events with
  | nil => exact (List.map_eq_nil_iff.mp h.symm).symm
  | cons line rest ih =>
      cases hblank : isBlank line with
      | true => rw [eventsOf_of_blank hblank, ih ((logs_of_blank hblank).mp h)]
      | false =>
          obtain ⟨event, later, rfl, hevent, hrest⟩ := (logs_of_not_blank hblank).mp h
          rw [eventsOf_of_event hblank hevent, ih hrest]

theorem eventsOf_filter (lines : List Line) :
    eventsOf (lines.filter fun line => !isBlank line) = eventsOf lines := by
  induction lines with
  | nil => rfl
  | cons line rest ih =>
      cases hblank : isBlank line with
      | true => rw [List.filter_cons_of_neg (by simp [hblank]), eventsOf_of_blank hblank, ih]
      | false =>
          rw [List.filter_cons_of_pos (by simp [hblank])]
          cases hevent : event? line with
          | none => rw [eventsOf_of_fault hblank hevent, eventsOf_of_fault hblank hevent]
          | some event => rw [eventsOf_of_event hblank hevent, eventsOf_of_event hblank hevent, ih]

theorem logs_filter (h : Logs lines events) :
    Logs (lines.filter fun line => !isBlank line) events := by
  unfold Logs at h ⊢
  simpa only [List.filter_filter, Bool.and_self] using h

/-- A longer log has the events of a shorter one first. -/
theorem eventsOf_append (lines more : List Line) : eventsOf lines <+: eventsOf (lines ++ more) := by
  induction lines with
  | nil => exact List.nil_prefix
  | cons line rest ih =>
      rw [List.cons_append]
      cases hblank : isBlank line with
      | true =>
          rw [eventsOf_of_blank hblank, eventsOf_of_blank hblank]
          exact ih
      | false =>
          cases hevent : event? line with
          | none =>
              rw [eventsOf_of_fault hblank hevent]
              exact List.nil_prefix
          | some event =>
              rw [eventsOf_of_event hblank hevent, eventsOf_of_event hblank hevent]
              exact (List.prefix_cons_inj event).mpr ih

/-! ### Texts of events -/

/-- The text of an event starts with a brace. -/
theorem isBlankLine_write (event : MarketEvent) : isBlankLine (Codec.write event) = false := by
  obtain ⟨rest, hrest⟩ : ∃ rest, (Codec.encode event).chars = '{' :: rest := ⟨_, rfl⟩
  have hbrace : isWhiteSpace '{' = false := by decide
  unfold isBlankLine Codec.write Json.text
  rw [String.toList_ofList, hrest, List.all_cons, hbrace]
  rfl

theorem event?_write (hwritable : event.Writable) :
    event? (some (Codec.write event)) = some event := by
  rw [event?, Option.bind_some]
  exact Codec.Lawful.read?_write hwritable (by decide)

/-- Events that can be written have a log. -/
theorem logs_write (hwritable : ∀ event ∈ events, event.Writable) :
    Logs (events.map fun event => some (Codec.write event)) events := by
  have hfilter : (events.map fun event => (some (Codec.write event) : Line)).filter
      (fun line => !isBlank line) = events.map fun event => some (Codec.write event) := by
    rw [List.filter_eq_self]
    intro line hline
    obtain ⟨event, _, heq⟩ := List.mem_map.mp hline
    have hblank : isBlank (some (Codec.write event)) = false := isBlankLine_write event
    rw [← heq, hblank]
    rfl
  unfold Logs
  rw [hfilter, List.map_map]
  refine List.map_congr_left fun event hm => ?_
  rw [Function.comp_apply, event?_write (hwritable event hm)]

/-- No text gives a trade without figures. -/
theorem Logs.tellsTrade (h : Logs lines events) (hm : event ∈ events) : event.TellsTrade := by
  have hevent : some event ∈ events.map some := List.mem_map_of_mem hm
  rw [← h, List.mem_map] at hevent
  obtain ⟨line, _, hline⟩ := hevent
  obtain ⟨text, _, hread⟩ := Option.bind_eq_some_iff.mp hline
  have hwritable : event.Writable := Codec.Lawful.writable_of_read? hread
  intro t ht
  rw [Rounding.isNaN_eq_false (hwritable.trade t ht).price]
  rfl

/-! ### Bytes -/

theorem cutLines_cons (b : UInt8) (rest : List UInt8) :
    cutLines (b :: rest) =
      if b = 10 then [] :: cutLines rest
      else
        match cutLines rest with
        | [] => [[b]]
        | line :: lines => (b :: line) :: lines := rfl

theorem cutLines_cons_ne_nil (b : UInt8) (rest : List UInt8) : cutLines (b :: rest) ≠ [] := by
  rw [cutLines_cons]
  split
  · exact List.cons_ne_nil _ _
  · split <;> exact List.cons_ne_nil _ _

/-- Where bytes are empty or end a line, what follows begins another. -/
theorem cutLines_append {first : List UInt8} (hends : ∀ b ∈ first.getLast?, b = 10)
    (second : List UInt8) : cutLines (first ++ second) = cutLines first ++ cutLines second := by
  induction first with
  | nil => rfl
  | cons b rest ih =>
      cases rest with
      | nil =>
          rw [hends b rfl]
          rfl
      | cons b' rest =>
          have hrest := ih fun b hb => hends b (by rwa [List.getLast?_cons_cons])
          -- the rest has begun a line, which is where `b` goes
          obtain ⟨line, lines, hlines⟩ := List.exists_cons_of_ne_nil (cutLines_cons_ne_nil b' rest)
          rw [List.cons_append, cutLines_cons, cutLines_cons b, hrest, hlines]
          split <;> rfl

theorem toList_loop (bytes : ByteArray) (i : Nat) (r : List UInt8) :
    ByteArray.toList.loop bytes i r = r.reverse ++ bytes.data.toList.drop i := by
  fun_induction ByteArray.toList.loop bytes i r with
  | case1 i r h ih =>
      have hi : i < bytes.data.toList.length := by simpa using h
      have hget : bytes.get! i = bytes.data.toList[i] := getElem!_pos bytes.data i h
      rw [ih, List.drop_eq_getElem_cons hi, List.reverse_cons, List.append_assoc, hget]
      rfl
  | case2 i r h =>
      rw [List.drop_eq_nil_of_le, List.append_nil]
      simpa using h

theorem toList_bytes (bytes : ByteArray) : bytes.toList = bytes.data.toList :=
  toList_loop bytes 0 []

/-- A recording that is written on has the lines that it had first. -/
theorem linesOf_append {first : ByteArray} (hends : ∀ b ∈ first.toList.getLast?, b = 10)
    (second : ByteArray) : linesOf (first ++ second) = linesOf first ++ linesOf second := by
  unfold linesOf
  rw [← List.map_append, ← cutLines_append hends, toList_bytes, toList_bytes, toList_bytes,
    ByteArray.toList_data_append]

/-! ## Transcripts -/

/-- Whether an output is kept. -/
def keeps (readyOnly : Bool) (o : SignalOutput) : Bool := !readyOnly || o.isReady

theorem filter_keeps_false (os : List SignalOutput) : os.filter (keeps false) = os :=
  List.filter_eq_self.mpr fun _ _ => rfl

theorem filter_keeps_true (os : List SignalOutput) :
    os.filter (keeps true) = os.filter (·.isReady) :=
  List.filter_congr fun _ _ => rfl

namespace Transcript

variable {readyOnly : Bool} {number : Nat} {t t' : Transcript}

/-- What becomes of a transcript over events that are dispatched one after the other. -/
structure Replays (readyOnly : Bool) (t : Transcript) (events : List MarketEvent)
    (t' : Transcript) : Prop where
  engine : t'.engine = { t.engine with registry := t.engine.registry.afterEach events }
  outputs : t'.outputs.toList = t.outputs.toList ++
    ((t.engine.registry.dispatchEach events).flatMap (·.report.outputs)).filter (keeps readyOnly)
  warnings : t'.warnings.size = t.warnings.size +
    ((t.engine.registry.dispatchEach events).map (·.report.failures.length)).sum
  events : t'.events = t.events + events.length

theorem Replays.nil (t : Transcript) : t.Replays readyOnly [] t where
  engine := rfl
  outputs := (List.append_nil _).symm
  warnings := rfl
  events := rfl

/-- The transcript after one event. -/
def after (t : Transcript) (readyOnly : Bool) (number : Nat) (event : MarketEvent) : Transcript :=
  let d := t.engine.registry.dispatch event
  { t with
    engine := { t.engine with registry := d.registry }
    events := t.events + 1 }.note readyOnly number event d.report

theorem Replays.cons (h : (t.after readyOnly number event).Replays readyOnly events t') :
    t.Replays readyOnly (event :: events) t' where
  engine := h.engine
  outputs := by
    rw [h.outputs, Registry.dispatchEach, List.flatMap_cons, List.filter_append,
      ← List.append_assoc]
    simp only [after, note, Array.toList_appendList]
    rfl
  warnings := by
    rw [h.warnings, Registry.dispatchEach, List.map_cons, List.sum_cons, ← Nat.add_assoc]
    simp only [after, note, ← Array.length_toList, Array.toList_appendList, List.length_append,
      List.length_map]
  events := by
    rw [h.events, List.length_cons, Nat.add_comm events.length, ← Nat.add_assoc]
    rfl

/-- The closing words count what the events have come to. -/
theorem Replays.summary_eq {t'' : Transcript} (h : t.Replays readyOnly events t')
    (h' : t.Replays readyOnly events t'') : t'.summary = t''.summary := by
  have houtputs : t'.outputs.size = t''.outputs.size := by
    rw [← Array.length_toList, ← Array.length_toList, h.outputs, h'.outputs]
  have hwarnings : t'.warnings.size = t''.warnings.size := h.warnings.trans h'.warnings.symm
  have hevents : t'.events = t''.events := h.events.trans h'.events.symm
  unfold summary
  rw [houtputs, hwarnings, hevents]

/-! ### One line -/

theorem step_of_blank (hblank : isBlank line = true) : t.step readyOnly number line = .ok t := by
  cases line with
  | none => cases hblank
  | some text => exact if_pos hblank

theorem step_of_fault (hblank : isBlank line = false) (hevent : event? line = none) :
    ∃ fault, t.step readyOnly number line = .error fault := by
  cases line with
  | none => exact ⟨_, rfl⟩
  | some text =>
      have hread : Codec.read? MarketEvent text = none := hevent
      have htext : isBlankLine text = false := hblank
      refine ⟨.malformedLine number, ?_⟩
      unfold step
      simp only [htext, hread]
      rfl

theorem step_of_event (hup : t.engine.isShutDown = false) (hblank : isBlank line = false)
    (hevent : event? line = some event) :
    t.step readyOnly number line = .ok (t.after readyOnly number event) := by
  cases line with
  | none => cases hevent
  | some text =>
      have hread : Codec.read? MarketEvent text = some event := hevent
      have htext : isBlankLine text = false := hblank
      unfold step
      simp only [htext, hread, Engine.dispatch_of_up hup]
      rfl

/-! ### All lines -/

/-- A run over lines dispatches their events. -/
theorem run_replays (hup : t.engine.isShutDown = false) (number : Nat) (lines : List Line) :
    t.Replays readyOnly (eventsOf lines) (run readyOnly number lines t).1 := by
  induction lines generalizing t number with
  | nil => exact .nil t
  | cons line rest ih =>
      cases hblank : isBlank line with
      | true =>
          rw [run, step_of_blank hblank, eventsOf_of_blank hblank]
          exact ih hup _
      | false =>
          cases hevent : event? line with
          | none =>
              obtain ⟨fault, hfault⟩ := step_of_fault hblank hevent
              rw [run, hfault, eventsOf_of_fault hblank hevent]
              exact .nil t
          | some event =>
              have hup' : (t.after readyOnly number event).engine.isShutDown = false := hup
              rw [run, step_of_event hup hblank hevent, eventsOf_of_event hblank hevent]
              exact (ih hup' _).cons

/-- A run over a log gets to its end. -/
theorem run_logs (hup : t.engine.isShutDown = false) (h : Logs lines events) (number : Nat) :
    (run readyOnly number lines t).2 = none := by
  induction lines generalizing t number events with
  | nil => rfl
  | cons line rest ih =>
      cases hblank : isBlank line with
      | true =>
          rw [run, step_of_blank hblank]
          exact ih hup ((logs_of_blank hblank).mp h) _
      | false =>
          obtain ⟨event, later, rfl, hevent, hrest⟩ := (logs_of_not_blank hblank).mp h
          have hup' : (t.after readyOnly number event).engine.isShutDown = false := hup
          rw [run, step_of_event hup hblank hevent]
          exact ih hup' hrest _

end Transcript

/-! ## The whole program -/

/-- Surroundings in which there are settings and the lines of a recording. -/
def Surroundings.holding (settings : String) (lines : List Line) : Surroundings Id where
  text _ := .ok settings
  lines _ := some lines

/-- The outcome of a replay of given settings and lines. -/
def recorded (settings : String) (lines : List Line) (readyOnly : Bool) : Outcome :=
  replay (.holding settings lines) { config := "", readyOnly }

variable {settings : String} {c : EngineConfig} {e : Engine Alpha} {readyOnly : Bool}

theorem recorded_eq (settings : String) (lines : List Line) (readyOnly : Bool) :
    recorded settings lines readyOnly =
      match prepare "" (.ok settings) with
      | .error fault => .failed fault
      | .ok engine => .ofTranscript (Transcript.run readyOnly 1 lines { engine }) := rfl

/-- Where the settings and the lines come from does not matter. -/
theorem replay_eq_recorded {m : Type → Type} [Monad m] [LawfulMonad m] {s : Surroundings m}
    {o : Options} (htext : s.text o.config = pure (.ok settings))
    (hlines : s.lines o.events = pure (some lines)) :
    replay s o = pure (recorded settings lines o.readyOnly) := by
  have hprepare : prepare o.config (.ok settings) = prepare "" (.ok settings) := rfl
  unfold replay
  rw [htext, hlines, pure_bind, hprepare, recorded_eq]
  cases prepare "" (.ok settings) with
  | error fault => rfl
  | ok e => simp only [pure_bind]

/-- Settings set up an engine, or no replay of them begins. -/
theorem prepare_of_config (hconfig : EngineConfig.ofText settings = .ok c) :
    prepare "" (.ok settings) = (Engine.ofConfig c).mapError .engine := by
  have hfile : EngineConfig.ofFile "" (.ok settings) = .ok c := hconfig
  unfold prepare
  rw [hfile]
  rfl

theorem recorded_of_fault {fault : Fault} (hprepare : prepare "" (.ok settings) = .error fault)
    (lines : List Line) (readyOnly : Bool) :
    recorded settings lines readyOnly = .failed fault := by
  rw [recorded_eq, hprepare]

theorem recorded_of_engine (hprepare : prepare "" (.ok settings) = .ok e) (lines : List Line)
    (readyOnly : Bool) :
    recorded settings lines readyOnly =
      .ofTranscript (Transcript.run readyOnly 1 lines { engine := e }) := by
  rw [recorded_eq, hprepare]

theorem up_of_prepare (hprepare : prepare "" (.ok settings) = .ok e) : e.isShutDown = false := by
  obtain ⟨c, -, he⟩ := bind_eq_ok_iff.mp hprepare
  exact Engine.up_of_ofConfig (mapError_eq_ok_iff.mp he)

theorem outputs_ofTranscript (ran : Transcript × Option Fault) :
    (Outcome.ofTranscript ran).outputs = ran.1.outputs := by
  obtain ⟨t, fault?⟩ := ran
  cases fault? <;> rfl

/-- The outputs of a replay are those of its events that it keeps. -/
theorem outputs_recorded (hprepare : prepare "" (.ok settings) = .ok e) (lines : List Line)
    (readyOnly : Bool) :
    (recorded settings lines readyOnly).outputs.toList =
      ((e.registry.dispatchEach (eventsOf lines)).flatMap (·.report.outputs)).filter
        (keeps readyOnly) := by
  rw [recorded_of_engine hprepare, outputs_ofTranscript]
  exact (Transcript.run_replays (t := { engine := e }) (up_of_prepare hprepare) 1 lines).outputs

/-- The outcome of a log that is replayed to its end. -/
theorem recorded_logs (hprepare : prepare "" (.ok settings) = .ok e) (hlog : Logs lines events)
    (readyOnly : Bool) :
    (recorded settings lines readyOnly).fault = none ∧
      ∃ t : Transcript, (recorded settings lines readyOnly).summary = some t.summary ∧
        ({ engine := e } : Transcript).Replays readyOnly events t := by
  have hup := up_of_prepare hprepare
  have hreplays : ({ engine := e } : Transcript).Replays readyOnly (eventsOf lines)
      (Transcript.run readyOnly 1 lines { engine := e }).1 := Transcript.run_replays hup 1 lines
  have hend : (Transcript.run readyOnly 1 lines { engine := e }).2 = none :=
    Transcript.run_logs hup hlog 1
  rw [hlog.eventsOf_eq] at hreplays
  rw [recorded_of_engine hprepare]
  generalize Transcript.run readyOnly 1 lines { engine := e } = ran at hreplays hend
  obtain ⟨t, fault?⟩ := ran
  cases hend
  exact ⟨rfl, t, rfl, hreplays⟩

/-- Events of one instrument in order of time may come as a batch. -/
theorem updateBatch_ofEvents {ε : Type} [Estimator ε] {e : Engine ε} (hup : e.isShutDown = false)
    {i : InstrumentId} (hsame : ∀ event ∈ events, event.instrumentId = i)
    (htells : ∀ event ∈ events, event.TellsTrade)
    (hordered : (events.map (·.timestamp.nanos)).Pairwise (· ≤ ·)) :
    (e.updateBatch (.ofEvents i events)).1 = .ok (e.registry.reportEach events) := by
  have hrun := Registry.runBatch_of_down (r := e.registry)
    (Batch.not_flawed_ofEvents (i := i) hordered) e.batch.chunkSize .never fun _ _ => rfl
  rw [Batch.events_ofEvents hsame htells hordered] at hrun
  unfold Engine.updateBatch Engine.call
  simp only [hup, hrun, Bool.false_eq_true, if_false]
  rfl

/-- Blank lines come to nothing. -/
theorem recorded_filter (hlog : Logs lines events) (settings : String) (readyOnly : Bool) :
    let unblanked := lines.filter fun line => !isBlank line
    (recorded settings unblanked readyOnly).printed =
        (recorded settings lines readyOnly).printed ∧
      (recorded settings unblanked readyOnly).summary =
        (recorded settings lines readyOnly).summary ∧
      (recorded settings unblanked readyOnly).fault =
        (recorded settings lines readyOnly).fault := by
  intro unblanked
  cases hprepare : prepare "" (.ok settings) with
  | error fault =>
      rw [recorded_of_fault hprepare, recorded_of_fault hprepare]
      exact ⟨rfl, rfl, rfl⟩
  | ok e =>
      have hevents : eventsOf unblanked = eventsOf lines := eventsOf_filter lines
      obtain ⟨hend, t, hsummary, hreplays⟩ := recorded_logs hprepare hlog readyOnly
      obtain ⟨hend', t', hsummary', hreplays'⟩ :=
        recorded_logs hprepare (logs_filter hlog) readyOnly
      refine ⟨?_, ?_, hend'.trans hend.symm⟩
      · unfold Outcome.printed
        rw [outputs_recorded hprepare, outputs_recorded hprepare, hevents]
      · rw [hsummary, hsummary', hreplays'.summary_eq hreplays]

/-- What is left out of the outputs are those of estimators that warm up. -/
theorem recorded_ready (settings : String) (lines : List Line) :
    (recorded settings lines true).outputs.toList =
      (recorded settings lines false).outputs.toList.filter (·.isReady) := by
  cases hprepare : prepare "" (.ok settings) with
  | error fault =>
      rw [recorded_of_fault hprepare, recorded_of_fault hprepare]
      rfl
  | ok e =>
      rw [outputs_recorded hprepare, outputs_recorded hprepare, filter_keeps_true,
        filter_keeps_false]

/-- A recording that goes on prints more. -/
theorem recorded_append (settings : String) (lines more : List Line) (readyOnly : Bool) :
    (recorded settings lines readyOnly).printed <+:
      (recorded settings (lines ++ more) readyOnly).printed := by
  cases hprepare : prepare "" (.ok settings) with
  | error fault =>
      rw [recorded_of_fault hprepare, recorded_of_fault hprepare]
  | ok e =>
      obtain ⟨later, hlater⟩ := eventsOf_append lines more
      unfold Outcome.printed
      rw [outputs_recorded hprepare, outputs_recorded hprepare, ← hlater,
        Registry.dispatchEach_append, List.flatMap_append, List.filter_append, List.map_append]
      exact List.prefix_append _ _

/-- A replay agrees with the engine.  For settings that are accepted and a log whose lines
are texts of events where they are not blank:

1. wherever settings and lines come from, the outcome is the same;
2. where the settings set up no engine, the replay fails as the engine does;
3. otherwise it gets to the end of the log, and prints the outputs of its events, dispatched
   one by one on the engine, in their order; if all events are on one instrument and in
   order of time, these are the outputs of one batch with a row for each event, NaN in both
   trade columns where it has no trade;
4. without its blank lines the log has the same outcome;
5. what is printed of estimators past their warm-up is all that is printed but the outputs
   that are not ready;
6. when more lines follow, whatever they are, more is printed behind what was printed;
7. bytes that follow whole lines are more lines. -/
theorem replay_is_dispatches (hconfig : EngineConfig.ofText settings = .ok c)
    (hlog : Logs lines events) :
    (∀ (m : Type → Type) [Monad m] [LawfulMonad m] (s : Surroundings m) (o : Options),
      s.text o.config = pure (.ok settings) → s.lines o.events = pure (some lines) →
        replay s o = pure (recorded settings lines o.readyOnly)) ∧
    (∀ error, (Engine.ofConfig c : Except HostError (Engine Alpha)) = .error error →
      ∀ readyOnly, recorded settings lines readyOnly = .failed (.engine error)) ∧
    (∀ e : Engine Alpha, Engine.ofConfig c = .ok e →
      (∀ readyOnly, (recorded settings lines readyOnly).fault = none) ∧
      ∃ reports : List DispatchReport, e.dispatchEach events = reports.map .ok ∧
        (recorded settings lines false).printed = (reports.flatMap (·.outputs)).map Codec.write ∧
        ∀ i, (∀ event ∈ events, event.instrumentId = i) →
          (events.map (·.timestamp.nanos)).Pairwise (· ≤ ·) →
          ∃ report, (e.updateBatch (.ofEvents i events)).1 = .ok report ∧
            report.outputs = reports.flatMap (·.outputs)) ∧
    (∀ readyOnly,
      let unblanked := lines.filter fun line => !isBlank line
      (recorded settings unblanked readyOnly).printed =
          (recorded settings lines readyOnly).printed ∧
        (recorded settings unblanked readyOnly).summary =
          (recorded settings lines readyOnly).summary ∧
        (recorded settings unblanked readyOnly).fault =
          (recorded settings lines readyOnly).fault) ∧
    (recorded settings lines true).printed =
      ((recorded settings lines false).outputs.toList.filter (·.isReady)).map Codec.write ∧
    (∀ readyOnly more, (recorded settings lines readyOnly).printed <+:
      (recorded settings (lines ++ more) readyOnly).printed) ∧
    ∀ first second : ByteArray, (∀ b ∈ first.toList.getLast?, b = 10) →
      linesOf (first ++ second) = linesOf first ++ linesOf second := by
  have hprepare := prepare_of_config hconfig
  refine ⟨?_, ?_, ?_, recorded_filter hlog settings, ?_, ?_, ?_⟩
  · intro m _ _ s o htext hlines
    exact replay_eq_recorded htext hlines
  · intro error herror readyOnly
    rw [herror] at hprepare
    exact recorded_of_fault hprepare lines readyOnly
  · intro e he
    rw [he] at hprepare
    have hup := Engine.up_of_ofConfig he
    refine ⟨fun readyOnly => (recorded_logs hprepare hlog readyOnly).1,
      (e.registry.dispatchEach events).map (·.report), ?_, ?_, ?_⟩
    · rw [Engine.dispatchEach_of_up hup, List.map_map]
      rfl
    · unfold Outcome.printed
      rw [outputs_recorded hprepare, hlog.eventsOf_eq, filter_keeps_false, List.flatMap_map]
    · intro i hsame hordered
      exact ⟨_, updateBatch_ofEvents hup hsame (fun _ => hlog.tellsTrade) hordered, rfl⟩
  · unfold Outcome.printed
    rw [recorded_ready]
  · intro readyOnly more
    exact recorded_append settings lines more readyOnly
  · intro first second hends
    exact linesOf_append hends second

/-- A quote and a trade on `X`. -/
def twoEvents : List MarketEvent :=
  [⟨⟨1⟩, ⟨"X"⟩, 99, 10, 101, 5, none⟩, ⟨⟨2⟩, ⟨"X"⟩, 99, 12, 101, 5, some ⟨100, 2⟩⟩]

/-- Their texts behind a blank line. -/
def twoLines : List Line := some " \t" :: twoEvents.map fun event => some (Codec.write event)

/-- The text of settings with two estimators on `X`. -/
def twoSettings : String := Codec.write ({ registrations := Engine.twoOnX } : EngineConfig)

theorem ofText_twoSettings :
    EngineConfig.ofText twoSettings = .ok { registrations := Engine.twoOnX } := by
  have hvalid : ({ registrations := Engine.twoOnX } : EngineConfig).validate = .ok () := rfl
  have hwritable : ({ registrations := Engine.twoOnX } : EngineConfig).Writable := by
    refine EngineConfig.writable_of_validate ⟨?_, by decide, by decide⟩ hvalid
    simp only [Engine.twoOnX, List.forall_mem_cons, List.not_mem_nil, false_imp_iff, implies_true,
      and_true]
    exact ⟨trivial, by decide, by decide, by decide⟩
  exact EngineConfig.ofText_of_read? (Codec.Lawful.read?_write hwritable (by decide)) hvalid

theorem logs_twoLines : Logs twoLines twoEvents := by
  have hwritable : ∀ event ∈ twoEvents, event.Writable := by
    simp only [twoEvents, List.forall_mem_cons, List.not_mem_nil, false_imp_iff, implies_true,
      and_true]
    refine ⟨⟨by decide, by decide, by decide, by decide, fun _ ht => by cases ht⟩,
      ⟨by decide, by decide, by decide, by decide, ?_⟩⟩
    rintro t ⟨⟩
    exact ⟨by decide, by decide⟩
  have hblank : isBlank (some " \t") = true := by decide
  exact (logs_of_blank hblank).mpr (logs_write hwritable)

/-- A replay of the lines, and a batch of their events, in a new engine. -/
theorem replay_is_dispatches_twoLines :
    ∃ (e : Engine Alpha) (report : BatchReport),
      Engine.ofConfig { registrations := Engine.twoOnX } = .ok e ∧
      (e.updateBatch (.ofEvents ⟨"X"⟩ twoEvents)).1 = .ok report ∧
      (recorded twoSettings twoLines false).printed = report.outputs.map Codec.write ∧
      (recorded twoSettings (twoLines.filter fun line => !isBlank line) false).printed =
        report.outputs.map Codec.write := by
  obtain ⟨e, he⟩ := (Engine.exists_ofConfig_iff (ε := Alpha) { registrations := Engine.twoOnX }).mpr
    ⟨rfl, by decide, by decide⟩
  obtain ⟨-, -, hengine, hblank, -⟩ := replay_is_dispatches ofText_twoSettings logs_twoLines
  obtain ⟨-, reports, -, hprinted, hbatch⟩ := hengine e he
  obtain ⟨report, hreport, houtputs⟩ := hbatch ⟨"X"⟩ (by simp [twoEvents]) (by decide)
  rw [← houtputs] at hprinted
  exact ⟨e, report, he, hreport, hprinted, (hblank false).1.trans hprinted⟩

end Replay

end MarketSignals
