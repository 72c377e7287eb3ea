import MarketSignals.Batch.Reference
import MarketSignals.Proofs.Regime.Reference
import MarketSignals.Proofs.Registry.Restart

/-!
# Loading a reference among other calls

A load reads the bins of a detector, counts the samples without holding the registry,
and installs the counts.  Other calls may come between any two samples: they may change
the detector, remove it, and register others in its place.

The counts fit whatever the handle still reaches.  A handle reaches nothing new until
the generation of its entry has come round, so what it reaches at the end is the
registration whose bins were read, and no call on a registration changes its bins.

## Main definitions

* `Counting` — counting samples while other calls come in between.
* `Load` — a whole load, from the registry that it reads on.

## Main results

* `counting_iff` — counting and the other calls do not meet.
* `load_iff_loadReference` — a load that nothing interrupts.
* `interrupted_load_harmless` — a load among other calls.
-/

namespace MarketSignals

variable {ε : Type} {b : Binning} {chunk position chunkSize : Nat} {cancel : Cancellation}
  {samples : List Float}

/-! ## Counts -/

/-- Counting puts nothing into new bins. -/
theorem size_of_countSamples {counts counts' : Array Nat}
    (hc : countSamples b chunk cancel position samples counts = .ok counts') :
    counts'.size = counts.size := by
  induction samples generalizing position counts with
  | nil =>
      cases hc
      rfl
  | cons x rest ih =>
      unfold countSamples at hc
      split at hc
      · cases hc
      · split at hc
        · cases hc
        · rw [ih hc, Array.size_modify]

/-- Samples that were counted to the end are finite, and the flag has made no
difference. -/
theorem countSamples_ok {counts counts' : Array Nat}
    (hc : countSamples b chunk cancel position samples counts = .ok counts') :
    (∀ x ∈ samples, x.isFinite = true) ∧
      countSamples b chunk .never position samples counts = .ok counts' := by
  induction samples generalizing position counts with
  | nil => exact ⟨fun x hx => (by cases hx), hc⟩
  | cons x rest ih =>
      unfold countSamples at hc
      split at hc
      · cases hc
      · split at hc
        · cases hc
        · next hfinite =>
            have hx : x.isFinite = true := by simpa using hfinite
            obtain ⟨hrest, hnever⟩ := ih hc
            refine ⟨fun y hy => ?_, ?_⟩
            · rcases List.mem_cons.mp hy with rfl | hy
              · exact hx
              · exact hrest y hy
            · unfold countSamples
              simp only [Cancellation.stopsAt, Bool.and_false, Bool.false_eq_true, if_false, hx,
                Bool.not_true]
              exact hnever

/-- Counts that were taken to the end are those of the samples. -/
theorem ofCounts_of_referenceCounts (hb : 0 < b.nBins) {counts : List Nat}
    (hc : referenceCounts b samples chunkSize cancel = .ok counts) :
    counts.length = b.nBins ∧ Histogram.ofCounts counts = .ofSamples b samples := by
  obtain ⟨counted, hcounted, rfl⟩ := map_eq_ok_iff.mp hc
  obtain ⟨hfinite, hnever⟩ := countSamples_ok hcounted
  have hsame := referenceCounts_eq (b := b) hfinite chunkSize
  unfold referenceCounts at hsame
  rw [hnever] at hsame
  have hlist : counted.toList = (Histogram.ofSamples b samples).counts.toList :=
    Except.ok.inj hsame
  refine ⟨?_, ?_⟩
  · rw [Array.length_toList, size_of_countSamples hcounted, Array.size_replicate]
  · rw [hlist, Histogram.ofCounts_toList (Histogram.isConsistent_ofSamples hb samples)]

namespace Registry

variable [AlphaHost ε] {r r₀ r' left : Registry ε} {others : List (Step ε)} {h : Handle}

/-! ## Counting while other calls come in between -/

/-- Counting samples from `position` on, other calls coming in before any of them and at
the end: the calls with their answers, how counting ends, and the registry then. -/
inductive Counting (b : Binning) (chunk : Nat) (cancel : Cancellation) :
    (position : Nat) → List Float → Array Nat → Registry ε → List (Step ε) →
      Except CountingFault (Array Nat) → Registry ε → Prop
  | finished {position : Nat} {counts : Array Nat} {r : Registry ε} :
      Counting b chunk cancel position [] counts r [] (.ok counts) r
  | stopped {position : Nat} {x : Float} {rest : List Float} {counts : Array Nat} {r : Registry ε}
      (stops : (position % chunk = 0 && cancel.stopsAt false position) = true) :
      Counting b chunk cancel position (x :: rest) counts r [] (.error .cancelled) r
  | refused {position : Nat} {x : Float} {rest : List Float} {counts : Array Nat} {r : Registry ε}
      (goesOn : (position % chunk = 0 && cancel.stopsAt false position) = false)
      (notFinite : x.isFinite = false) :
      Counting b chunk cancel position (x :: rest) counts r [] (.error (.notFinite position x)) r
  | counted {position : Nat} {x : Float} {rest : List Float} {counts : Array Nat}
      {r r' : Registry ε} {others : List (Step ε)} {result : Except CountingFault (Array Nat)}
      (goesOn : (position % chunk = 0 && cancel.stopsAt false position) = false)
      (finite : x.isFinite = true)
      (tail : Counting b chunk cancel (position + 1) rest
        (counts.modify (b.indexOf x) (· + 1)) r others result r') :
      Counting b chunk cancel position (x :: rest) counts r others result r'
  | other {position : Nat} {samples : List Float} {counts : Array Nat} {r r' r'' : Registry ε}
      {c : Call ε} {a : Answer} {others : List (Step ε)}
      {result : Except CountingFault (Array Nat)}
      (allowed : c.Allowed r) (performed : r.perform c = (a, r'))
      (tail : Counting b chunk cancel position samples counts r' others result r'') :
      Counting b chunk cancel position samples counts r (⟨c, a⟩ :: others) result r''

/-- Counting and the other calls do not meet: the calls run as if nothing was counted,
and counting ends as if there were no calls. -/
theorem counting_iff {counts : Array Nat} {result : Except CountingFault (Array Nat)} :
    Counting b chunk cancel position samples counts r others result r' ↔
      Run r others r' ∧ countSamples b chunk cancel position samples counts = result := by
  constructor
  · intro hc
    induction hc with
    | finished => exact ⟨.nil _, rfl⟩
    | stopped stops =>
        refine ⟨.nil _, ?_⟩
        rw [countSamples, if_pos stops]
    | refused goesOn notFinite =>
        refine ⟨.nil _, ?_⟩
        rw [countSamples, if_neg (by rw [goesOn]; exact Bool.false_ne_true),
          if_pos (by rw [notFinite]; rfl)]
    | counted goesOn finite _ ih =>
        refine ⟨ih.1, ?_⟩
        rw [countSamples, if_neg (by rw [goesOn]; exact Bool.false_ne_true),
          if_neg (by rw [finite]; exact Bool.false_ne_true)]
        exact ih.2
    | other allowed performed _ ih => exact ⟨.cons allowed performed ih.1, ih.2⟩
  · rintro ⟨hr, rfl⟩
    -- all the other calls first, then the samples
    induction hr with
    | cons allowed performed _ ih => exact .other allowed performed ih
    | nil r =>
        induction samples generalizing position counts with
        | nil => exact .finished
        | cons x rest ih =>
            unfold countSamples
            split
            · next stops => exact .stopped stops
            · next goesOn =>
                have goesOn' := Bool.eq_false_iff.mpr goesOn
                split
                · next hx => exact .refused goesOn' (by simpa using hx)
                · next hx => exact .counted goesOn' (by simpa using hx) ih

/-! ## Loads -/

/-- A load of a reference, from the registry that it reads the bins from: the calls that
come in between, the registry that they leave, the result, and the registry that the
load leaves. -/
inductive Load (h : Handle) (samples : List Float) (chunkSize : Nat) (cancel : Cancellation) :
    Registry ε → List (Step ε) → Registry ε → Except HostError Unit → Registry ε → Prop
  | unread {r r' : Registry ε} {error : EngineError}
      (read : r.referenceBinning h = (.error error, r')) :
      Load h samples chunkSize cancel r [] r (.error (.ofEngine error)) r'
  | uncounted {r r₀ left : Registry ε} {b : Binning} {others : List (Step ε)}
      {fault : CountingFault} (read : r.referenceBinning h = (.ok b, r₀))
      (counting : Counting b (chunkLength chunkSize) cancel 0 samples
        (Array.replicate b.nBins 0) r₀ others (.error fault) left) :
      Load h samples chunkSize cancel r others left (.error fault.toHostError) left
  | installed {r r₀ left r' : Registry ε} {b : Binning} {others : List (Step ε)}
      {counts : Array Nat} {result : Except EngineError Unit}
      (read : r.referenceBinning h = (.ok b, r₀))
      (counting : Counting b (chunkLength chunkSize) cancel 0 samples
        (Array.replicate b.nBins 0) r₀ others (.ok counts) left)
      (install : left.installReference h counts.toList = (result, r')) :
      Load h samples chunkSize cancel r others left (result.mapError .ofEngine) r'

/-- A load that no other call interrupts is the one that runs in one piece. -/
theorem load_iff_loadReference {result : Except HostError Unit} :
    (∃ left, Load h samples chunkSize cancel r [] left result r') ↔
      r.loadReference h samples chunkSize cancel = (result, r') := by
  constructor
  · rintro ⟨left, hload⟩
    unfold loadReference referenceCounts
    cases hload with
    | unread read => rw [read]
    | uncounted read counting =>
        obtain ⟨hr, hcounts⟩ := counting_iff.mp counting
        cases hr
        simp only [read, hcounts]
        rfl
    | installed read counting install =>
        obtain ⟨hr, hcounts⟩ := counting_iff.mp counting
        cases hr
        simp only [read, hcounts]
        show ((_ : Except EngineError Unit).mapError HostError.ofEngine, _) = _
        rw [install]
  · intro hload
    unfold loadReference referenceCounts at hload
    split at hload
    · next read =>
        cases hload
        exact ⟨_, .unread read⟩
    · next binning r₀ read =>
        cases hcounts : countSamples binning (chunkLength chunkSize) cancel 0 samples
            (Array.replicate binning.nBins 0) with
        | error fault =>
            rw [hcounts] at hload
            cases hload
            exact ⟨_, .uncounted read (counting_iff.mpr ⟨.nil _, hcounts⟩)⟩
        | ok counts =>
            rw [hcounts] at hload
            cases hload
            exact ⟨_, .installed read (counting_iff.mpr ⟨.nil _, hcounts⟩) rfl⟩

/-- Whatever the other calls are, a load comes to an end. -/
theorem exists_load {r₀ : Registry ε} (hread : r.referenceBinning h = (.ok b, r₀))
    (hr : Run r₀ others left) (samples : List Float) (chunkSize : Nat) (cancel : Cancellation) :
    ∃ result r', Load h samples chunkSize cancel r others left result r' := by
  cases hcounts : countSamples b (chunkLength chunkSize) cancel 0 samples
      (Array.replicate b.nBins 0) with
  | error fault => exact ⟨_, _, .uncounted hread (counting_iff.mpr ⟨hr, hcounts⟩)⟩
  | ok counts => exact ⟨_, _, .installed hread (counting_iff.mpr ⟨hr, hcounts⟩) rfl⟩

/-! ## The registration that is read -/

/-- A call removes at most one slot from an entry. -/
theorem removals_le_length (r : Registry ε) (index : UInt32) (steps : List (Step ε)) :
    r.removals index steps ≤ steps.length := by
  induction steps generalizing r with
  | nil => exact Nat.le_refl 0
  | cons step rest ih =>
      have hrest := ih (r.perform step.call).2
      simp only [removals, List.length_cons]
      split <;> omega

/-- A handle that reaches something again after fewer removals than there are
generations has reached it all along. -/
theorem removals_eq_zero {s t : Slot ε} (hr : Run r others r') (hs : r.arena.get? h = some s)
    (ht : r'.arena.get? h = some t) (hfew : r.removals h.index others < 2 ^ 32) :
    r.removals h.index others = 0 := by
  have hreach := get?_of_removals hr hs
  rw [ht] at hreach
  split at hreach
  · next hwrap => exact Nat.eq_zero_of_dvd_of_lt hwrap hfew
  · cases hreach

/-- A handle is not given out again while it reaches something. -/
theorem notMem_issued {s : Slot ε} (wf : r.WellFormed) (hr : Run r others r')
    (hs : r.arena.get? h = some s) (hkept : r.removals h.index others = 0) :
    h ∉ issued others := by
  induction hr generalizing s with
  | nil => exact List.not_mem_nil
  | @cons r r₁ r₂ c a rest _ performed _ ih =>
      simp only [removals, performed] at hkept
      have hvacates : r.vacates r₁ h.index = false := by
        rw [Bool.eq_false_iff]
        intro htrue
        rw [if_pos htrue] at hkept
        omega
      obtain ⟨t, ht, _⟩ := perform_live wf performed hs hvacates
      have hrest := ih (perform_wellFormed wf performed) ht (by omega)
      intro hm
      obtain ⟨step, hstep, hissued⟩ := List.mem_filterMap.mp hm
      rcases List.mem_cons.mp hstep with rfl | hstep
      · obtain rfl := Step.issued?_eq_some_iff.mp hissued
        obtain ⟨_, _, _, _, hreg⟩ := registerEstimator_of_issued performed
        obtain ⟨_, _, hins⟩ := (enrols_registerEstimator hreg).inserted
        rw [wf.arena.get?_eq_none_of_insert hins] at hs
        cases hs
      · exact hrest (List.mem_filterMap.mpr ⟨step, hstep, hissued⟩)

end Registry

/-! ## Detectors -/

/-- The error of counts that do not fit the bins of a detector. -/
def binMismatch (counted used : Nat) : EngineError :=
  .invalidInput s!"reference has {counted} bins, estimator uses {used}"

/-- A result that is not the refusal of counts that do not fit. -/
def Fits (result : Except HostError Unit) : Prop :=
  ∀ counted used, result ≠ .error (.ofEngine (binMismatch counted used))

theorem ofEngine_invalidInput {reason reason' : String}
    (h : HostError.ofEngine (.invalidInput reason) = .ofEngine (.invalidInput reason')) :
    reason = reason' := by
  have hmessage : "Invalid input: " ++ reason = "Invalid input: " ++ reason' :=
    congrArg HostError.message h
  have hlist := congrArg String.toList hmessage
  rw [String.toList_append, String.toList_append] at hlist
  exact String.toList_injective (List.append_cancel_left hlist)

/-- An error that says something else of the input, as its first letters show. -/
theorem fits_invalidInput {reason : String}
    (hr : reason.toList.take 12 ≠ "reference ha".toList) :
    Fits (.error (.ofEngine (.invalidInput reason))) := by
  intro counted used heq
  have hreason := ofEngine_invalidInput (Except.error.inj heq)
  apply hr
  rw [hreason]
  show ("reference has " ++ toString counted ++ " bins, estimator uses " ++
    toString used).toList.take 12 = _
  simp only [String.toList_append, List.append_assoc]
  rfl

/-- An error that is not about the input. -/
theorem fits_of_code {error : EngineError} (hc : error.code ≠ .invalidInput) :
    Fits (.error (.ofEngine error)) :=
  fun _ _ heq => hc (congrArg HostError.code (Except.error.inj heq))

theorem fits_countingFault (fault : CountingFault) : Fits (.error fault.toHostError) := by
  cases fault with
  | cancelled => exact fits_of_code (by decide)
  | notFinite position sample =>
      intro counted used heq
      -- the message stands by itself, while the other says first that it is about the input
      have hmessage := congrArg (·.message.toList) (Except.error.inj heq)
      change ("reference sample " ++ toString position ++ " is not finite: " ++
          Decimal.text sample).toList = ("Invalid input: " ++ _).toList at hmessage
      simp only [String.toList_append, List.append_assoc] at hmessage
      have hhead := congrArg List.head? hmessage
      cases hhead

/-! ## Reading and installing on one cell -/

namespace Cell

variable {c d : Cell Alpha} {counts : List Nat}

/-- Bins are read from detectors only. -/
theorem through_binningOf (hb : c.through binningOf = (.ok b, d)) :
    ∃ e, c.slot.estimator = .klRegime e ∧ e.binning = b := by
  unfold Cell.through Slot.guarded at hb
  split at hb
  · cases hb
  · cases ha : c.slot.estimator with
    | klRegime e =>
        rw [ha] at hb
        cases hb
        exact ⟨e, rfl, rfl⟩
    | garch e =>
        rw [ha] at hb
        cases hb
    | ofi e =>
        rw [ha] at hb
        cases hb

theorem fits_through_binningOf {error : EngineError}
    (hb : c.through binningOf = (.error error, d)) : Fits (.error (.ofEngine error)) := by
  have hwording : ∀ kind : AlphaKind,
      s!"{kind.name} estimator has no reference histogram".toList.take 12 ≠
        "reference ha".toList := by
    intro kind
    cases kind <;> decide
  unfold Cell.through Slot.guarded at hb
  split at hb
  · cases hb
    exact fits_of_code (by simp [Slot.disabledError, EngineError.code])
  · cases ha : c.slot.estimator with
    | klRegime e =>
        rw [ha] at hb
        cases hb
    | garch e =>
        rw [ha] at hb
        cases hb
        exact fits_invalidInput (hwording _)
    | ofi e =>
        rw [ha] at hb
        cases hb
        exact fits_invalidInput (hwording _)

/-- A cell with the reference of its detector replaced. -/
def withReference (c : Cell Alpha) (e : Regime.Estimator) (reference : Histogram) : Cell Alpha :=
  { c with slot := { c.slot with
      estimator := .klRegime { e with reference, referenceTarget := 0, filling := false } } }

/-- Counts for the bins of a detector replace its reference, or they are refused for
another reason and nothing has changed. -/
theorem through_installReference {e : Regime.Estimator} (he : c.slot.estimator = .klRegime e)
    (hfit : counts.length = e.binning.nBins) :
    c.through (Estimator.installReference · counts) =
        (.ok (), c.withReference e (.ofCounts counts)) ∨
      ∃ error, c.through (Estimator.installReference · counts) = (.error error, c) ∧
        Fits (.error (.ofEngine error)) := by
  unfold Cell.through Slot.guarded
  split
  · refine .inr ⟨_, rfl, fits_of_code ?_⟩
    simp [Slot.disabledError, EngineError.code]
  · have hself : { c with slot := { c.slot with estimator := Alpha.klRegime e } } = c := by
      rw [← he]
    rw [he]
    show Prod.map _ _ (c.slot.absorb (Alpha.settle .klRegime e
      ((e.installReference counts).map ((), ·)))) = _ ∨ ∃ error, Prod.map _ _ (c.slot.absorb
        (Alpha.settle .klRegime e ((e.installReference counts).map ((), ·)))) = _ ∧ _
    unfold Regime.Estimator.installReference
    split
    · refine .inr ⟨_, Prod.ext rfl hself, fits_of_code ?_⟩
      simp [Regime.Estimator.disabledError, EngineError.code]
    · rw [if_neg (not_not.mpr hfit)]
      simp only
      split
      · exact .inr ⟨_, Prod.ext rfl hself, fits_invalidInput (by decide)⟩
      · exact .inl rfl

end Cell

namespace Registry

/-! ## A load among other calls -/

section

variable {r r₀ r' left : Registry Alpha} {others : List (Step Alpha)} {h : Handle}

/-- Reading bins changes nothing, and succeeds for detectors only. -/
theorem referenceBinning_ok (hread : r.referenceBinning h = (.ok b, r₀)) :
    r₀ = r ∧ ∃ c e, r.cell? h = some c ∧ c.slot.estimator = .klRegime e ∧ e.binning = b := by
  cases hc : r.cell? h with
  | none =>
      unfold referenceBinning callSlot at hread
      rw [slot_of_no_cell hc] at hread
      cases hread
  | some c =>
      have hcall : r.callSlot h Cell.binningOf = (.ok b, r₀) := hread
      rw [callSlot_eq hc, Cell.through_binningOf_snd, put_self hc] at hcall
      obtain ⟨hresult, hleft⟩ := Prod.mk.inj hcall
      obtain ⟨e, he, hb⟩ := Cell.through_binningOf (Prod.ext hresult rfl)
      exact ⟨hleft.symm, c, e, rfl, he, hb⟩

theorem referenceBinning_error {error : EngineError}
    (hread : r.referenceBinning h = (.error error, r')) :
    r' = r ∧ Fits (.error (.ofEngine error)) := by
  cases hc : r.cell? h with
  | none =>
      unfold referenceBinning callSlot at hread
      rw [slot_of_no_cell hc] at hread
      cases hread
      exact ⟨rfl, fits_of_code (by simp [staleError, EngineError.code])⟩
  | some c =>
      have hcall : r.callSlot h Cell.binningOf = (.error error, r') := hread
      rw [callSlot_eq hc, Cell.through_binningOf_snd, put_self hc] at hcall
      obtain ⟨hresult, hleft⟩ := Prod.mk.inj hcall
      exact ⟨hleft.symm, Cell.fits_through_binningOf (Prod.ext hresult rfl)⟩

/-- A detector that a handle still reaches after other calls is the one that was there,
with the bins it had. -/
theorem same_registration (hs : r.Sound) (hr : Run r others left) {c d : Cell Alpha}
    {e : Regime.Estimator} (hc : r.cell? h = some c) (he : c.slot.estimator = .klRegime e)
    (hd : left.cell? h = some d) (hfew : r.removals h.index others < 2 ^ 32) :
    r.removals h.index others = 0 ∧ Stays h r others left ∧
      ∃ e', d.slot.estimator = .klRegime e' ∧ e'.binning = e.binning ∧
        0 < e'.binning.nBins := by
  have wf := hs.wellFormed
  have hlive := (cell?_eq_some_iff.mp hc).1
  have hkept := removals_eq_zero hr hlive (cell?_eq_some_iff.mp hd).1 hfew
  have hstays := hr.stays wf (notMem_issued wf hr hlive hkept) ⟨d, hd⟩
  refine ⟨hkept, hstays, ?_⟩
  obtain ⟨_, hafter⟩ := hstays.observed_eq (c := c) wf fun d' hd' => by
    rw [hc] at hd'
    exact (Option.some.inj hd').symm
  obtain ⟨fresh, hgrown⟩ := Alpha.sound_iff.mp (hs.cell h c hc)
  have hgrown' : Alpha.GrownFrom fresh d.slot.estimator := by
    rw [hafter d hd]
    exact Cell.closed_after (Alpha.closed_grownFrom fresh) hgrown _
  rw [he] at hgrown
  cases hgrown with
  | klRegime hf hin =>
      generalize d.slot.estimator = a at hgrown'
      cases hgrown' with
      | @klRegime _ e' _ _ hin' =>
          have hbins : e'.binning = e.binning := hin'.binning.trans hin.binning.symm
          refine ⟨e', rfl, hbins, ?_⟩
          rw [hin'.binning]
          exact hf.nBins_pos

/-- The reference of the registration that the bins were read from is replaced, and
nothing else is changed. -/
structure Installed (r : Registry Alpha) (h : Handle) (samples : List Float)
    (others : List (Step Alpha)) (left r' : Registry Alpha) : Prop where
  /-- The registration has been there all along. -/
  stays : Stays h r others left
  replaced : ∃ (read c : Cell Alpha) (eRead e : Regime.Estimator), r.cell? h = some read ∧
    read.slot.estimator = .klRegime eRead ∧ left.cell? h = some c ∧
    c.slot.estimator = .klRegime e ∧ e.binning = eRead.binning ∧
    r' = left.put h (c.withReference e (.ofSamples eRead.binning samples))

/-- An interrupted load is harmless.  In a registry of the engine's estimators, let any
other calls come in between the reading of the bins, the counting of the samples and the
installation, with fewer removals from the entry of the handle than there are
generations, and let the load be cancelled at any moment.  The other calls run as if
there was no load.  The counts are never refused because they do not fit the bins.  If
the load succeeds, it replaces the whole reference of the registration that the bins were
read from, in one step; if it fails, everything is as the other calls left it. -/
theorem interrupted_load_harmless {steps : List (Step Alpha)} (hr : Run .empty steps r)
    (hstock : ∀ step ∈ steps, step.call.Stock) {result : Except HostError Unit}
    (hload : Load h samples chunkSize cancel r others left result r')
    (hfew : r.removals h.index others < 2 ^ 32) :
    Run r others left ∧ Fits result ∧ (result = .ok () → Installed r h samples others left r') ∧
      ∀ error, result = .error error → r' = left := by
  have hs := empty_sound.run hr hstock
  cases hload with
  | unread read =>
      obtain ⟨rfl, hfits⟩ := referenceBinning_error read
      exact ⟨.nil _, hfits, nofun, fun _ _ => rfl⟩
  | uncounted read counting =>
      obtain ⟨rfl, _⟩ := referenceBinning_ok read
      exact ⟨(counting_iff.mp counting).1, fits_countingFault _, nofun, fun _ _ => rfl⟩
  | installed read counting install =>
      obtain ⟨rfl, c, e, hc, he, rfl⟩ := referenceBinning_ok read
      obtain ⟨hrun, hcounts⟩ := counting_iff.mp counting
      refine ⟨hrun, ?_⟩
      cases hd : left.cell? h with
      | none =>
          unfold installReference callSlot at install
          rw [slot_of_no_cell hd] at install
          cases install
          exact ⟨fits_of_code (by simp [staleError, EngineError.code]), nofun, fun _ _ => rfl⟩
      | some d =>
          obtain ⟨_, hstays, e', he', hbins, hpos⟩ := same_registration hs hrun hc he hd hfew
          obtain ⟨hlength, hofCounts⟩ := ofCounts_of_referenceCounts (hbins ▸ hpos)
            (map_eq_ok_iff.mpr ⟨_, hcounts, rfl⟩)
          rw [← hbins] at hlength
          obtain ⟨hresult, hleft⟩ := Prod.mk.inj ((callSlot_eq hd _).symm.trans install)
          rcases Cell.through_installReference he' hlength with hok | ⟨error, herror, hfits⟩
          · rw [hok] at hresult hleft
            subst hresult
            refine ⟨nofun, fun _ => ?_, nofun⟩
            refine ⟨hstays, c, d, e, e', hc, he, hd, he', hbins, ?_⟩
            rw [← hleft, hofCounts]
          · rw [herror] at hresult hleft
            subst hresult
            rw [put_self hd] at hleft
            exact ⟨hfits, nofun, fun _ _ => hleft.symm⟩

/-- Calls that remove a detector and register another one in its place. -/
def replacingCalls : List (Call Alpha) :=
  [.dispatch (quote "X" 10), .deregister ⟨0, 0⟩,
    .register ⟨"a"⟩ ⟨"X"⟩ (.klRegime { Regime.shortWindow with nBins := 7 }), .rebase ⟨0, 0⟩]

/-- Settings that are accepted can be registered in the empty registry, and the handle
reaches what they build. -/
theorem exists_registered {config : AlphaConfig} {fresh : Alpha} (hb : config.build = .ok fresh)
    (k : SlotKey) : ∃ r, Run (.empty : Registry Alpha)
      [⟨.register k.alphaId k.instrumentId config, .ok (.handle ⟨0, 0⟩)⟩] r ∧
        r.cell? ⟨0, 0⟩ = some (freshCell k fresh) := by
  obtain ⟨r, hreg⟩ := registerEstimator_empty k.alphaId k.instrumentId fresh
  have hregister : (empty : Registry Alpha).register k.alphaId k.instrumentId config =
      .ok (⟨0, 0⟩, r) := by
    unfold Registry.register
    rw [hb]
    exact hreg
  have hperform : (empty : Registry Alpha).perform
      (.register k.alphaId k.instrumentId config) = (.ok (.handle ⟨0, 0⟩), r) := by
    show (empty : Registry Alpha).enrolled _ = _
    rw [hregister]
    rfl
  exact ⟨r, .cons trivial hperform (.nil r),
    (cell?_register empty_logged.wellFormed hb hregister).2⟩

theorem interrupted_load_harmless_replaced :
    ∃ steps r, Run (.empty : Registry Alpha) steps r ∧ (∀ step ∈ steps, step.call.Stock) ∧
      (∃ others left result r', Load ⟨0, 0⟩ [0.5, 2, -3] 2 .never r others left result r' ∧
        others.map (·.call) = replacingCalls ∧ r.removals 0 others < 2 ^ 32 ∧
        Fits result ∧ ∀ error, result = .error error → r' = left) ∧
      ∃ r', Load ⟨0, 0⟩ [0.5, 2, -3] 2 .never r [] r (.ok ()) r' ∧
        Installed r ⟨0, 0⟩ [0.5, 2, -3] [] r r' := by
  have hv : Regime.shortWindow.validate = .ok ⟨-1, 1, 4⟩ := by rfl
  have hf := Regime.fresh_of_validate hv
  have hb := Regime.build_eq_of_validate hv
  generalize Regime.Estimator.start ⟨-1, 1, 4⟩ _ _ _ _ _ = e₀ at hf hb
  have hbuild : (AlphaConfig.klRegime Regime.shortWindow).build = .ok (.klRegime e₀) := by
    simp only [AlphaConfig.build, hb]
    rfl
  obtain ⟨r, hr, hc⟩ := exists_registered hbuild ⟨⟨"a"⟩, ⟨"X"⟩⟩
  have hstock : ∀ step ∈ [(⟨.register ⟨"a"⟩ ⟨"X"⟩ (.klRegime Regime.shortWindow),
      .ok (.handle ⟨0, 0⟩)⟩ : Step Alpha)], step.call.Stock := by
    intro step hm
    rw [List.mem_singleton.mp hm]
    trivial
  have hread : r.referenceBinning ⟨0, 0⟩ = (.ok e₀.binning, r) := by
    have hcall : r.referenceBinning ⟨0, 0⟩ = _ := callSlot_eq hc Cell.binningOf
    rw [hcall]
    exact Prod.ext rfl (put_self hc)
  refine ⟨_, r, hr, hstock, ?_, ?_⟩
  · have hothers : Run r (r.performAll replacingCalls).1 (r.performAll replacingCalls).2 :=
      run_performAll r (by simp [replacingCalls])
    have hfew : r.removals 0 (r.performAll replacingCalls).1 < 2 ^ 32 := by
      apply Nat.lt_of_le_of_lt (removals_le_length r 0 _)
      rw [← List.length_map (f := Step.call), map_call_performAll]
      decide
    obtain ⟨result, r', hload⟩ := exists_load hread hothers [0.5, 2, -3] 2 .never
    obtain ⟨_, hfits, _, hleft⟩ := interrupted_load_harmless hr hstock hload hfew
    exact ⟨_, _, result, r', hload, map_call_performAll r _, hfew, hfits, hleft⟩
  · have hfinite : ∀ x ∈ [(0.5 : Float), 2, -3], x.isFinite = true := by
      intro x hx
      simp only [List.mem_cons, List.not_mem_nil, or_false] at hx
      rcases hx with rfl | rfl | rfl <;> rfl
    obtain ⟨counts, hcounts, hlist⟩ :=
      map_eq_ok_iff.mp (referenceCounts_eq (b := e₀.binning) hfinite 2)
    have hinstall : e₀.installReference counts.toList = .ok (e₀.loaded [0.5, 2, -3]) := by
      rw [hlist]
      exact Regime.installReference_eq hf (by simp) (by decide)
    have haccepted : ((freshCell ⟨⟨"a"⟩, ⟨"X"⟩⟩ (.klRegime e₀)).through
        (Estimator.installReference · counts.toList)).1 = .ok () := by
      show ((freshSlot ⟨⟨"a"⟩, ⟨"X"⟩⟩ (.klRegime e₀)).absorb (Alpha.settle .klRegime e₀
        ((e₀.installReference counts.toList).map ((), ·)))).1 = .ok ()
      rw [hinstall]
      rfl
    obtain ⟨r', hcall⟩ : ∃ r', r.installReference ⟨0, 0⟩ counts.toList = (.ok (), r') := by
      have hcall : r.installReference ⟨0, 0⟩ counts.toList = _ :=
        callSlot_eq hc (Estimator.installReference · counts.toList)
      exact ⟨_, hcall.trans (Prod.ext haccepted rfl)⟩
    have hload : Load ⟨0, 0⟩ [0.5, 2, -3] 2 .never r [] r (.ok ()) r' :=
      .installed hread (counting_iff.mpr ⟨.nil r, hcounts⟩) hcall
    have hnone : r.removals 0 [] < 2 ^ 32 := Nat.two_pow_pos 32
    exact ⟨r', hload, (interrupted_load_harmless hr hstock hload hnone).2.2.1 rfl⟩

end

end Registry

end MarketSignals
