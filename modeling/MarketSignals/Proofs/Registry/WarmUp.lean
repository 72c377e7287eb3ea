import MarketSignals.Proofs.Alpha.WarmUp
import MarketSignals.Proofs.Registry.Restart

/-!
# Warm-up in the registry

What a registration has given since it was registered or last reset moves a gauge, and
the gauge tells the status of its next output.  A registration that is disabled gives no
output at all until it is reset.

## Main definitions

* `Result.output?` — the output of an update that succeeds.
* `Gauge.along` — the gauge after what a registration has given.
* `Gives` — an output of a registration, with what it has given since its last reset.
* `Accounted` — what such an output says about warm-up.

## Main results

* `Cell.Gauged.respond` — one thing that concerns a registration.
* `Tenure.shows` — every output of a registration.
* `warm_up_accounted` — the same in numbers, over a whole run.
-/

namespace MarketSignals

/-- What an output says, without whom it is from. -/
def SignalOutput.reading (o : SignalOutput) : SignalReading := ⟨o.value, o.status, o.detail⟩

/-! ## What a registration gives -/

/-- The output of an update that succeeds. -/
def Result.output? : Result → Option SignalOutput
  | .answer (.ok (.output o)) => some o
  | .part (some (.ok o)) => some o
  | _ => none

/-- The outputs among what a registration has given. -/
def outputs (seen : List (Concern × Result)) : List SignalOutput := seen.filterMap (·.2.output?)

/-- A reset that succeeds. -/
def resets : Concern × Result → Bool
  | (.touch .reset, .answer (.ok .done)) => true
  | _ => false

/-- Counts that are installed. -/
def installs : Concern × Result → Bool
  | (.touch (.installReference _), .answer (.ok .done)) => true
  | _ => false

/-- A reference that is replaced, by a rebase or by counts. -/
def renews (x : Concern × Result) : Bool :=
  match x with
  | (.touch .rebase, .answer (.ok .done)) => true
  | x => installs x

section

variable {m : Nat} {g : Gauge} {x : Concern × Result} {seen : List (Concern × Result)}

theorem outputs_cons_some {o : SignalOutput} (ho : x.2.output? = some o) :
    outputs (x :: seen) = o :: outputs seen := List.filterMap_cons_some ho

theorem outputs_cons_none (ho : x.2.output? = none) : outputs (x :: seen) = outputs seen :=
  List.filterMap_cons_none ho

theorem renews_of_installs (hi : installs x = true) : x.2.output? = none ∧ renews x = true := by
  unfold installs at hi
  split at hi
  · exact ⟨rfl, rfl⟩
  · cases hi

namespace Gauge

/-- The gauge after one thing that a registration has given; after a new reference `m`
samples are required. -/
def observe (m : Nat) (g : Gauge) (x : Concern × Result) : Gauge :=
  if x.2.output?.isSome then g.next else if renews x then g.replaced m else g

/-- The gauge after all that a registration has given. -/
def along (m : Nat) (g : Gauge) (seen : List (Concern × Result)) : Gauge :=
  seen.foldl (observe m) g

theorem along_append_cons (g : Gauge) (first rest : List (Concern × Result)) :
    g.along m (first ++ x :: rest) = ((g.along m first).observe m x).along m rest :=
  List.foldl_append

/-- A gauge that does not run over, and asks for `m` samples at least. -/
structure Sane (m : Nat) (g : Gauge) : Prop where
  collected_le : g.collected ≤ g.required
  le_required : m ≤ g.required

theorem Sane.next (h : g.Sane m) : g.next.Sane m := by
  obtain ⟨hle, hm⟩ := h
  unfold Gauge.next
  split
  · exact ⟨Nat.min_le_left _ _, hm⟩
  · exact ⟨hle, hm⟩

theorem Sane.replaced (h : g.Sane m) : (g.replaced m).Sane m := by
  obtain ⟨hle, hm⟩ := h
  refine ⟨?_, le_refl m⟩
  show g.collected - (g.required - m) ≤ m
  omega

theorem Sane.observe (h : g.Sane m) (x : Concern × Result) : (g.observe m x).Sane m := by
  unfold Gauge.observe
  split
  · exact h.next
  · split
    · exact h.replaced
    · exact h

theorem Sane.along (h : g.Sane m) (seen : List (Concern × Result)) : (g.along m seen).Sane m := by
  induction seen generalizing g with
  | nil => exact h
  | cons x rest ih => exact ih (h.observe x)

/-- Once warm-up is over, it stays over. -/
theorem Full.along (hf : g.Full) (h : g.Sane m) (seen : List (Concern × Result)) :
    (g.along m seen).Full := by
  induction seen generalizing g with
  | nil => exact hf
  | cons x rest ih =>
      refine ih ?_ (h.observe x)
      unfold Gauge.observe
      split
      · exact hf.next
      · split
        · exact hf.replaced h.le_required
        · exact hf

/-- Where no new reference makes a difference, only the outputs count. -/
theorem along_eq_advance (hle : g.collected ≤ g.required)
    (hquiet : (∀ x ∈ seen, renews x = false) ∨ g.required = m) :
    g.along m seen = g.advance (outputs seen).length := by
  induction seen generalizing g with
  | nil => rfl
  | cons x rest ih =>
      have hrest : (∀ y ∈ rest, renews y = false) ∨ g.required = m :=
        hquiet.imp_left fun h y hy => h y (List.mem_cons_of_mem x hy)
      cases ho : x.2.output? with
      | some o =>
          have hle' : g.next.collected ≤ g.next.required :=
            (Sane.next (m := 0) ⟨hle, Nat.zero_le _⟩).collected_le
          have hrequired : g.next.required = g.required := by
            unfold next
            split <;> rfl
          rw [outputs_cons_some ho, List.length_cons, ← advance_next hle,
            ← ih hle' (by rwa [hrequired])]
          show (g.observe m x).along m rest = _
          rw [observe, ho]
          rfl
      | none =>
          have hsame : g.observe m x = g := by
            rw [observe, ho]
            show (if renews x = true then g.replaced m else g) = g
            rcases hquiet with hq | hm
            · rw [hq x List.mem_cons_self]
              rfl
            · have hnoop : g.replaced m = g := by
                show (⟨g.seeded, g.collected - (g.required - m), m⟩ : Gauge) = g
                rw [← hm, Nat.sub_self, Nat.sub_zero]
              rw [hnoop, ite_self]
          rw [outputs_cons_none ho, ← ih hle hrest]
          show (g.observe m x).along m rest = _
          rw [hsame]

/-- The status of the next output, where no new reference makes a difference. -/
theorem status_along (hle : g.collected ≤ g.required)
    (hquiet : (∀ x ∈ seen, renews x = false) ∨ g.required = m) :
    (g.along m seen).next.status =
      let taken := g.collected + (outputs seen).length + if g.seeded then 1 else 0
      if taken < g.required then .insufficientData taken g.required else .ready := by
  rw [along_eq_advance hle hquiet, status_next_advance hle]

/-- Counts that are installed before the reference is full leave only the window to fill. -/
theorem along_installed {before after : List (Concern × Result)} {size : Nat}
    (hq : ∀ y ∈ before, renews y = false) (hi : installs x = true)
    (hsize : (outputs before).length ≤ size) :
    (Gauge.mk false 0 (size + m)).along m (before ++ x :: after) =
      (Gauge.mk (decide (outputs before ≠ [])) 0 m).along m after := by
  obtain ⟨hnone, hrenews⟩ := renews_of_installs hi
  rw [along_append_cons, along_eq_advance (g := .mk false 0 (size + m)) (Nat.zero_le _) (.inl hq),
    observe, hnone, hrenews]
  show (Gauge.replaced m _).along m after = _
  congr 1
  -- The price is known if there was an output, and no sample counts any more.
  cases houtputs : outputs before with
  | nil =>
      show Gauge.mk false (0 - _) m = Gauge.mk false 0 m
      rw [Nat.zero_sub]
  | cons o rest =>
      rw [houtputs, List.length_cons] at hsize
      show Gauge.mk true (min (size + m) (0 + rest.length) - (size + m - m)) m = Gauge.mk true 0 m
      congr 1
      omega

end Gauge

end

namespace Cell

variable {c c' : Cell Alpha} {fresh : Alpha} {g : Gauge} {event : MarketEvent} {k : Concern}

/-- A cell is disabled, or its estimator has come as far as a gauge says. -/
def Gauged (fresh : Alpha) (g : Gauge) (c : Cell Alpha) : Prop :=
  c.IsDisabled ∨ Alpha.Gauged fresh g c.slot.estimator

theorem feed_ok {o : SignalOutput} (hf : c.feed event = (.ok o, c')) :
    ∃ a', c.slot.estimator.update event = (.ok o.reading, a') ∧ c'.slot.estimator = a' := by
  unfold Cell.feed at hf
  rw [outcome_update] at hf
  split at hf
  · cases hf
  · cases hu : c.slot.estimator.update event with
    | mk result a =>
        rw [hu] at hf
        cases result with
        | ok reading =>
            cases hf
            exact ⟨a, rfl, rfl⟩
        | error fault => cases fault <;> cases hf

theorem through_ok {β : Type} {call : Alpha → Except Fault β × Alpha} {y : β}
    (ht : c.through call = (.ok y, c')) :
    ∃ a', call c.slot.estimator = (.ok y, a') ∧ c'.slot.estimator = a' := by
  unfold Cell.through Slot.guarded at ht
  split at ht
  · cases ht
  · cases ha : call c.slot.estimator with
    | mk result a =>
        rw [ha] at ht
        cases result with
        | ok x =>
            cases ht
            exact ⟨a, rfl, rfl⟩
        | error fault => cases fault <;> cases ht

/-- A feed that succeeds moves the gauge on, and any other leaves the cell as it was or
disabled; a dispatch and an update show it in their own ways. -/
theorem Gauged.feed {m : Nat} (h : c.Gauged fresh g) (hs : c.Sound) (event : MarketEvent)
    {f : Except EngineError SignalOutput → Result}
    (hf : ∀ result, (f result).output? = result.toOption)
    (hr : ∀ result, renews (k, f result) = false) :
    (c.feed event).2.Gauged fresh (g.observe m (k, f (c.feed event).1)) ∧
      ∀ o, (f (c.feed event).1).output? = some o → o.reading.Shows g.next fresh.kind := by
  cases hfed : c.feed event with
  | mk result c' =>
      simp only [Gauge.observe, hf, hr]
      cases result with
      | error error =>
          refine ⟨?_, fun o ho => by cases ho⟩
          show c'.Gauged fresh g
          rcases feed_error hs hfed with rfl | hbroken
          · exact h
          · exact .inl hbroken.isDisabled
      | ok o =>
          rcases h with hd | hg
          · obtain ⟨error, hfeed⟩ := feed_of_isDisabled hd event
            rw [hfed] at hfeed
            cases hfeed
          · obtain ⟨a', hu, ha⟩ := feed_ok hfed
            obtain ⟨hg', hshows⟩ := hg.update hu
            refine ⟨.inr ?_, fun o' ho => ?_⟩
            · rw [ha]
              exact hg'
            · cases ho
              exact hshows

/-- What is neither an output nor a new reference leaves the gauge as it is. -/
theorem Gauged.quiet {m : Nat} (h : c.Gauged fresh g) {x : Concern × Result}
    (ho : x.2.output? = none) (hr : renews x = false) :
    c.Gauged fresh (g.observe m x) ∧
      ∀ o, x.2.output? = some o → o.reading.Shows g.next fresh.kind := by
  refine ⟨?_, fun o heq => by rw [ho] at heq; cases heq⟩
  rw [Gauge.observe, ho, hr]
  exact h

/-- A new reference, where the call succeeds. -/
theorem Gauged.renew (h : c.Gauged fresh g) (hs : c.Sound) {t : Touch}
    {call : Alpha → Except Fault Unit × Alpha}
    (hact : c.act t = (c.through call).map (Registry.answer fun _ => .done) id)
    (ht : t = .rebase ∨ ∃ counts, t = .installReference counts)
    (hcall : ∀ {a a' : Alpha}, Alpha.Gauged fresh g a → call a = (.ok (), a') →
      Alpha.Gauged fresh (g.replaced fresh.quota) a') :
    (c.respond (.touch t)).2.Gauged fresh
        (g.observe fresh.quota (.touch t, (c.respond (.touch t)).1)) ∧
      ∀ o, (c.respond (.touch t)).1.output? = some o → o.reading.Shows g.next fresh.kind := by
  have hrespond : c.respond (.touch t) = (.answer (c.act t).1, (c.act t).2) := rfl
  rw [hrespond]
  cases hthrough : c.through call with
  | mk result c' =>
      rw [hthrough] at hact
      rw [hact]
      cases result with
      | error error =>
          have hsame : c' = c := by
            rcases act_error hs hact with hsame | ⟨event, rfl, _⟩
            · exact hsame
            · rcases ht with heq | ⟨_, heq⟩ <;> cases heq
          show c'.Gauged fresh _ ∧ _
          rw [hsame]
          exact h.quiet rfl (by rcases ht with rfl | ⟨_, rfl⟩ <;> rfl)
      | ok =>
          -- A disabled cell refuses the call, so this one has come as far as the gauge.
          rcases h with hd | hg
          · obtain ⟨fault, hrefused⟩ := act_of_isDisabled hd (.inr ht)
            rw [hact] at hrefused
            cases hrefused
          · obtain ⟨a', ha, hstate⟩ := through_ok hthrough
            refine ⟨.inr ?_, fun o heq => by cases heq⟩
            have hrenews : renews (.touch t, .answer (.ok .done)) = true := by
              rcases ht with rfl | ⟨_, rfl⟩ <;> rfl
            have hobserve : g.observe fresh.quota (.touch t, .answer (.ok .done)) =
                g.replaced fresh.quota := by
              rw [Gauge.observe, hrenews]
              rfl
            show Alpha.Gauged fresh (g.observe fresh.quota (.touch t, .answer (.ok .done)))
              c'.slot.estimator
            rw [hobserve, hstate]
            exact hcall hg ha

/-- Whatever is not a reset moves the gauge, and an output says how far it is. -/
theorem Gauged.respond (h : c.Gauged fresh g) (hs : c.Sound) (hk : k ≠ .touch .reset) :
    (c.respond k).2.Gauged fresh (g.observe fresh.quota (k, (c.respond k).1)) ∧
      ∀ o, (c.respond k).1.output? = some o → o.reading.Shows g.next fresh.kind := by
  cases k with
  | event event =>
      have hrespond : c.respond (.event event) =
          if c.slot.accepts event then (.part (some (c.feed event).1), (c.feed event).2)
          else (.part none, c) := by
        show (c.offer event).map Result.part id = _
        unfold offer
        split <;> rfl
      rw [hrespond]
      split
      · exact h.feed hs event (f := fun result => .part (some result))
          (fun result => by cases result <;> rfl) fun _ => rfl
      · exact h.quiet rfl rfl
  | touch t =>
      cases t with
      | update event =>
          have hrespond : c.respond (.touch (.update event)) =
              (.answer (Registry.answer .output (c.update event).1), (c.update event).2) := rfl
          rw [hrespond]
          unfold Cell.update
          split
          · exact h.quiet rfl rfl
          · split
            · exact h.quiet rfl rfl
            · exact h.feed hs event (f := fun result => .answer (Registry.answer .output result))
                (fun result => by cases result <;> rfl) fun result => by cases result <;> rfl
      | reset => exact absurd rfl hk
      | rebase => exact h.renew hs rfl (.inl rfl) Alpha.Gauged.rebase
      | referenceBinning =>
          have hrespond : c.respond (.touch .referenceBinning) =
              (.answer (Registry.answer .binning (c.through binningOf).1), c) := by
            refine Prod.ext rfl ?_
            exact through_binningOf_snd c
          rw [hrespond]
          refine h.quiet ?_ rfl
          cases (c.through binningOf).1 <;> rfl
      | installReference counts =>
          exact h.renew hs rfl (.inr ⟨counts, rfl⟩) fun hg hi => hg.installReference hi
      | latest => exact h.quiet rfl rfl

theorem not_reset_of_resets (hr : resets (k, (c.respond k).1) = false) : k ≠ .touch .reset := by
  rintro rfl
  obtain ⟨d, hact, _⟩ := act_reset c
  have hresult : (c.respond (.touch .reset)).1 = .answer (.ok .done) :=
    congrArg (fun p : Registry.Answer × Cell Alpha => Result.answer p.1) hact
  rw [hresult] at hr
  cases hr

/-- Every output says how far the gauge is that all that was given before has moved. -/
theorem Gauged.shows (h : c.Gauged fresh g) (hs : c.Sound) {ks : List Concern}
    {past later : List (Concern × Result)} {x : Concern × Result}
    (hr : c.replay ks = past ++ x :: later) (hq : ∀ y ∈ past, resets y = false)
    {o : SignalOutput} (ho : x.2.output? = some o) :
    o.reading.Shows (g.along fresh.quota past).next fresh.kind := by
  induction past generalizing c g ks with
  | nil =>
      cases ks with
      | nil => cases hr
      | cons k rest =>
          obtain ⟨rfl, _⟩ := List.cons.inj hr
          refine (h.respond hs ?_).2 o ho
          rintro rfl
          cases ho
  | cons y past ih =>
      cases ks with
      | nil => cases hr
      | cons k rest =>
          obtain ⟨rfl, hrest⟩ := List.cons.inj hr
          have hk := not_reset_of_resets (hq _ List.mem_cons_self)
          exact ih (h.respond hs hk).1 (closed_respond Alpha.closed_sound hs k) hrest
            fun z hz => hq z (List.mem_cons_of_mem _ hz)

theorem replay_append (c : Cell Alpha) (first rest : List Concern) :
    c.replay (first ++ rest) = c.replay first ++ (c.after first).replay rest := by
  induction first generalizing c with
  | nil => rfl
  | cons k first ih =>
      rw [List.cons_append, replay, ih]
      rfl

theorem replay_eq_append {ks : List Concern} {xs ys : List (Concern × Result)}
    (h : c.replay ks = xs ++ ys) :
    ∃ first rest, ks = first ++ rest ∧ xs = c.replay first ∧ ys = (c.after first).replay rest := by
  induction xs generalizing c ks with
  | nil => exact ⟨[], ks, rfl, rfl, h.symm⟩
  | cons x xs ih =>
      cases ks with
      | nil => cases h
      | cons k ks =>
          obtain ⟨hx, hrest⟩ := List.cons.inj h
          obtain ⟨first, rest, rfl, rfl, rfl⟩ := ih hrest
          exact ⟨k :: first, rest, rfl, by rw [← hx]; rfl, rfl⟩

theorem after_append (c : Cell Alpha) (first rest : List Concern) :
    c.after (first ++ rest) = (c.after first).after rest := List.foldl_append

theorem eq_reset_of_resets {y : Concern × Result} (hy : resets y = true) : y.1 = .touch .reset := by
  unfold resets at hy
  split at hy
  · rfl
  · cases hy

/-- What a new registration has become by a last reset is a new registration. -/
theorem after_eq_fresh {key : SlotKey} {config : AlphaConfig} (hb : config.build = .ok fresh)
    {ks : List Concern} (hstart : (freshCell key fresh).replay ks = [] ∨
      ∃ first y, (freshCell key fresh).replay ks = first ++ [y] ∧ resets y = true) :
    (freshCell key fresh).after ks = freshCell key fresh := by
  rcases hstart with hnil | ⟨first, y, hlast, hy⟩
  · cases ks with
    | nil => rfl
    | cons => cases hnil
  · obtain ⟨before, last, rfl, _, hsingle⟩ := replay_eq_append hlast
    cases last with
    | nil => cases hsingle
    | cons k more =>
        cases more with
        | cons => cases hsingle
        | nil =>
            -- The settings are those of the beginning, and a reset builds from nothing else.
            obtain ⟨rfl, _⟩ := List.cons.inj hsingle
            obtain rfl : k = .touch .reset := eq_reset_of_resets hy
            have hgrown := closed_after (c := freshCell key fresh) (Alpha.closed_grownFrom fresh)
              (Alpha.grownFrom_of_build hb) before
            rw [after_append]
            exact congrArg Prod.snd (act_reset_eq hgrown (info_after (freshCell key fresh) before))

end Cell

namespace Registry

variable {ε : Type} [AlphaHost ε] [LawfulAlphaHost ε] {r : Registry ε} {h : Handle}
  {steps : List (Step ε)} {config : AlphaConfig} {k : SlotKey} {fresh : Alpha}

/-- An output of a registration, and what the registration has given before since it was
registered or last reset. -/
def Gives (seen past : List (Concern × Result)) (o : SignalOutput) : Prop :=
  ∃ earlier x later, seen = earlier ++ (past ++ x :: later) ∧
    (earlier = [] ∨ ∃ first y, earlier = first ++ [y] ∧ resets y = true) ∧
    (∀ y ∈ past, resets y = false) ∧ x.2.output? = some o

/-- What was given before was given before what has followed. -/
theorem Gives.of_mem {seen past : List (Concern × Result)} {o o' : SignalOutput}
    (hg : Gives seen past o) (ho : o' ∈ outputs past) :
    ∃ first y rest, past = first ++ y :: rest ∧ y.2.output? = some o' ∧ Gives seen first o' := by
  obtain ⟨earlier, x, later, rfl, hstart, hq, _⟩ := hg
  obtain ⟨y, hy, hyo⟩ := List.mem_filterMap.mp ho
  obtain ⟨first, rest, rfl⟩ := List.append_of_mem hy
  refine ⟨first, y, rest, rfl, hyo, earlier, y, rest ++ x :: later, ?_, hstart, ?_, hyo⟩
  · rw [List.append_assoc, List.cons_append]
  · exact fun z hz => hq z (List.mem_append_left _ hz)

/-- An output comes after all that a cell has given before, if nothing of it is a reset. -/
theorem gives_replay {c : Cell Alpha} {first : List Concern} {k : Concern} {o : SignalOutput}
    (hquiet : ∀ y ∈ c.replay first, resets y = false)
    (ho : ((c.after first).respond k).1.output? = some o) (rest : List Concern) :
    Gives (c.replay (first ++ k :: rest)) (c.replay first) o :=
  ⟨[], _, _, c.replay_append .., .inl rfl, hquiet, ho⟩

theorem mem_outputs_replay {c : Cell Alpha} {first : List Concern} {k : Concern}
    {o : SignalOutput} (ho : ((c.after first).respond k).1.output? = some o)
    (rest : List Concern) : o ∈ outputs (c.replay (first ++ k :: rest)) := by
  rw [c.replay_append]
  exact List.mem_filterMap.mpr ⟨_, List.mem_append_right _ List.mem_cons_self, ho⟩

/-- Every output of a registration says how far the gauge is. -/
theorem Tenure.shows (ht : Tenure config k h steps r) (hb : config.build = .ok fresh)
    {past : List (Concern × Result)} {o : SignalOutput}
    (hg : Gives (observed h k.alphaId k.instrumentId steps) past o) :
    o.reading.Shows (fresh.gauge.along fresh.quota past).next fresh.kind := by
  obtain ⟨earlier, x, later, hseen, hstart, hq, ho⟩ := hg
  rw [(ht.observed_eq hb).2.1] at hseen
  obtain ⟨first, rest, _, rfl, hrest⟩ := Cell.replay_eq_append hseen
  rw [Cell.after_eq_fresh hb hstart] at hrest
  exact Cell.Gauged.shows (c := freshCell k fresh) (.inr (Alpha.grownFrom_of_build hb).gauged)
    (Alpha.sound_of_build hb) hrest.symm hq ho

/-- What is given after the last reset. -/
theorem exists_since_reset (front : List (Concern × Result)) :
    ∃ earlier past, front = earlier ++ past ∧
      (earlier = [] ∨ ∃ first y, earlier = first ++ [y] ∧ resets y = true) ∧
      ∀ y ∈ past, resets y = false := by
  induction front using List.reverseRecOn with
  | nil => exact ⟨[], [], rfl, .inl rfl, fun y hy => by cases hy⟩
  | append_singleton front y ih =>
      cases hy : resets y with
      | true =>
          have hnil : ∀ z ∈ ([] : List (Concern × Result)), resets z = false := fun z hz => by
            cases hz
          exact ⟨front ++ [y], [], (List.append_nil _).symm, .inr ⟨front, y, rfl, hy⟩, hnil⟩
      | false =>
          obtain ⟨earlier, past, rfl, hstart, hq⟩ := ih
          refine ⟨earlier, past ++ [y], List.append_assoc .., hstart, fun z hz => ?_⟩
          rcases List.mem_append.mp hz with hz | hz
          · exact hq z hz
          · rw [List.mem_singleton.mp hz]
            exact hy

theorem exists_gives {seen : List (Concern × Result)} {o : SignalOutput} (ho : o ∈ outputs seen) :
    ∃ past, Gives seen past o := by
  obtain ⟨x, hx, hxo⟩ := List.mem_filterMap.mp ho
  obtain ⟨front, later, rfl⟩ := List.append_of_mem hx
  obtain ⟨earlier, past, rfl, hstart, hq⟩ := exists_since_reset front
  exact ⟨past, earlier, x, later, List.append_assoc .., hstart, hq, hxo⟩

/-! ## The count -/

/-- What an output says about warm-up, after all that its registration has given since it
was registered or last reset. -/
structure Accounted (config : AlphaConfig) (past : List (Concern × Result)) (o : SignalOutput) :
    Prop where
  /-- An estimator without a reference gives a signal from its second output on. -/
  brief : config.kind ≠ .klRegime →
    o.status = if outputs past = [] then .insufficientData 1 2 else .ready
  /-- A detector fills the reference, and then the window. -/
  streamed : ∀ c, config = .klRegime c → (∀ x ∈ past, renews x = false) →
    let taken := (outputs past).length
    let required := c.referenceLength + c.windowLength
    o.status = if taken < required then .insufficientData taken required else .ready
  /-- Where counts were installed into a detector whose reference was not full, it fills
  the window; the output that seeds the price is no sample. -/
  installed : ∀ c before x after, config = .klRegime c → past = before ++ x :: after →
    (∀ y ∈ before, renews y = false) → installs x = true →
    (outputs before).length ≤ c.referenceLength →
    let taken := (outputs after).length + if outputs before = [] then 0 else 1
    o.status =
      if taken < c.windowLength then .insufficientData taken c.windowLength else .ready
  /-- A detector that warms up says nothing. -/
  blank : config.kind = .klRegime → ∀ collected required,
    o.status = .insufficientData collected required →
      o.value = 0 ∧ o.detail = .klRegime false 0 1 0
  short : ∀ collected required, o.status = .insufficientData collected required →
    collected < required
  settled : (∃ o' ∈ outputs past, o'.status = .ready) → o.status = .ready

/-- Once an output was ready, those that follow are, as long as there is no reset. -/
theorem Tenure.ready_of_ready (ht : Tenure config k h steps r) (hb : config.build = .ok fresh)
    {past : List (Concern × Result)} {o o' : SignalOutput}
    (hg : Gives (observed h k.alphaId k.instrumentId steps) past o) (ho' : o' ∈ outputs past)
    (hready : o'.status = .ready) : o.status = .ready := by
  have hgauged := (Alpha.grownFrom_of_build hb).gauged
  have hsane : fresh.gauge.Sane fresh.quota := ⟨hgauged.collected_le, hgauged.quota_le⟩
  obtain ⟨first, y, rest, rfl, hy, hg'⟩ := hg.of_mem ho'
  have hnext : (fresh.gauge.along fresh.quota first).observe fresh.quota y =
      (fresh.gauge.along fresh.quota first).next := by
    rw [Gauge.observe, hy]
    rfl
  have hsane' := (hsane.along first).next
  have hfull : (fresh.gauge.along fresh.quota first).next.Full :=
    Gauge.full_of_status hsane'.collected_le ((ht.shows hb hg').status.symm.trans hready)
  refine (ht.shows hb hg).status.trans ?_
  rw [Gauge.along_append_cons, hnext]
  exact (hfull.along hsane' rest).next.status_eq

/-- Warm-up is accounted for.  Every output of a registration of settings comes after some
time without a reset, and what has been given in this time says how far warm-up has
come, whatever rebases and installed counts there are. -/
theorem warm_up_accounted (ht : Tenure config k h steps r) :
    let seen := observed h k.alphaId k.instrumentId steps
    (∀ o ∈ outputs seen, ∃ past, Gives seen past o) ∧
      ∀ past o, Gives seen past o → Accounted config past o := by
  obtain ⟨fresh, hb⟩ := ht.exists_build
  refine ⟨fun o ho => exists_gives ho, fun past o hg => ?_⟩
  have hshows := ht.shows hb hg
  have hstatus : o.status = (fresh.gauge.along fresh.quota past).next.status := hshows.status
  refine
    { brief := fun hbrief => ?_
      streamed := ?_
      installed := ?_
      blank := fun hkl => hshows.blank ((Alpha.kind_of_build hb).trans hkl)
      short := fun _ _ hs => Gauge.collected_lt_of_status (hstatus.symm.trans hs)
      settled := fun ⟨_, ho', hready⟩ => ht.ready_of_ready hb hg ho' hready }
  · obtain ⟨hgauge, hquota⟩ := Alpha.gauge_of_build_brief hb hbrief
    rw [hstatus, hgauge, hquota,
      Gauge.status_along (g := .mk false 1 2) (by decide) (.inr rfl)]
    cases outputs past with
    | nil => rfl
    | cons o' rest =>
        show (if 1 + (rest.length + 1) + 0 < 2 then _ else _) = _
        rw [if_neg (by omega), if_neg (List.cons_ne_nil _ _)]
  · rintro c rfl hquiet
    rw [hstatus, (Alpha.gauge_of_build hb).1, Gauge.status_along (Nat.zero_le _) (.inl hquiet)]
    simp
  · rintro c before x after rfl rfl hquiet hi hsize
    obtain ⟨hgauge, hquota⟩ := Alpha.gauge_of_build hb
    rw [hstatus, hgauge, hquota, Gauge.along_installed hquiet hi hsize,
      Gauge.status_along (g := .mk _ 0 c.windowLength) (Nat.zero_le _) (.inr rfl)]
    simp

/-- Counts are installed, and then comes the event that seeds the price. -/
def seededCalls : List (Call Alpha) :=
  [.installReference ⟨0, 0⟩ [1, 0, 2, 0], .dispatch (quote "X" 10)]

/-- The window fills, and is then taken for the reference. -/
def settledCalls : List (Call Alpha) :=
  List.replicate 4 (.dispatch (quote "X" 10)) ++ [.rebase ⟨0, 0⟩, .dispatch (quote "X" 10)]

theorem warm_up_accounted_shortWindow :
    (∃ steps r, Tenure (.klRegime Regime.shortWindow) ⟨⟨"a"⟩, ⟨"X"⟩⟩ ⟨0, 0⟩ steps r ∧
      steps.map (·.call) = seededCalls ∧
      ∃ o, outputs (observed ⟨0, 0⟩ ⟨"a"⟩ ⟨"X"⟩ steps) = [o] ∧
        o.status = .insufficientData 0 2 ∧ o.value = 0) ∧
    ∃ steps r, Tenure (.klRegime { Regime.steadyWindow with referenceSize := some 1 })
        ⟨⟨"a"⟩, ⟨"X"⟩⟩ ⟨0, 0⟩ steps r ∧
      steps.map (·.call) = settledCalls ∧
      (∀ n < 4, ∃ past o, Gives (observed ⟨0, 0⟩ ⟨"a"⟩ ⟨"X"⟩ steps) past o ∧
        (outputs past).length = n ∧
          o.status = if n < 3 then .insufficientData n 3 else .ready) ∧
      ∃ past o, Gives (observed ⟨0, 0⟩ ⟨"a"⟩ ⟨"X"⟩ steps) past o ∧ (outputs past).length = 4 ∧
        past.any renews = true ∧ o.status = .ready := by
  refine ⟨?_, ?_⟩
  · obtain ⟨fresh, hb⟩ := Alpha.exists_build
      (show (AlphaConfig.klRegime Regime.shortWindow).validate = .ok () from rfl)
    obtain ⟨steps, r, ht, hcalls, _⟩ := exists_tenure hb ⟨⟨"a"⟩, ⟨"X"⟩⟩ seededCalls
      (by simp [seededCalls, Call.Removes])
    have hseen : ∃ o, observed ⟨0, 0⟩ ⟨"a"⟩ ⟨"X"⟩ steps =
        [(.touch (.installReference [1, 0, 2, 0]), .answer (.ok .done)),
          (.event (quote "X" 10), .part (some (.ok o)))] := by
      rw [(ht.observed_eq hb).2.1, concerns_eq, hcalls]
      cases hb
      exact ⟨_, rfl⟩
    obtain ⟨o, hseen⟩ := hseen
    obtain ⟨_, haccounted⟩ := warm_up_accounted ht
    have hgives : Gives (observed ⟨0, 0⟩ ⟨"a"⟩ ⟨"X"⟩ steps)
        [(.touch (.installReference [1, 0, 2, 0]), .answer (.ok .done))] o :=
      ⟨[], _, [], hseen, .inl rfl, by simp [resets], rfl⟩
    have ho := haccounted _ _ hgives
    have hstatus : o.status = .insufficientData 0 2 :=
      ho.installed _ [] _ [] rfl rfl (fun y hy => by cases hy) rfl (Nat.zero_le _)
    exact ⟨steps, r, ht, hcalls, o, by rw [hseen]; rfl, hstatus, (ho.blank rfl 0 2 hstatus).1⟩
  · let fresh : Alpha := .klRegime (.start ⟨-1, 1, 4⟩ 2 1 0.05 1e-30 {})
    let c := freshCell ⟨⟨"a"⟩, ⟨"X"⟩⟩ fresh
    let event : Concern := .event (quote "X" 10)
    have hb : (AlphaConfig.klRegime
        { Regime.steadyWindow with referenceSize := some 1 }).build = .ok fresh := rfl
    obtain ⟨steps, r, ht, hcalls, _⟩ := exists_tenure hb ⟨⟨"a"⟩, ⟨"X"⟩⟩ settledCalls
      (by simp [settledCalls, Call.Removes])
    have hseen : observed ⟨0, 0⟩ ⟨"a"⟩ ⟨"X"⟩ steps =
        c.replay (List.replicate 4 event ++ [.touch .rebase, event]) := by
      rw [(ht.observed_eq hb).2.1, concerns_eq, hcalls]
      rfl
    obtain ⟨_, haccounted⟩ := warm_up_accounted ht
    refine ⟨steps, r, ht, hcalls, ?_⟩
    rw [hseen] at haccounted ⊢
    -- All returns are zero, so every window that is tested lies in one bin.
    have hquiet : ∀ n < 4, (∀ y ∈ c.replay (List.replicate n event), resets y = false) ∧
        (∀ y ∈ c.replay (List.replicate n event), renews y = false) ∧
        (outputs (c.replay (List.replicate n event))).length = n ∧
        ((c.after (List.replicate n event)).respond event).1.output?.isSome = true := by
      decide +kernel
    have hfilling : ∀ n < 4, ∃ o,
        ((c.after (List.replicate n event)).respond event).1.output? = some o ∧
        Gives (c.replay (List.replicate 4 event ++ [.touch .rebase, event]))
          (c.replay (List.replicate n event)) o ∧
        o.status = if n < 3 then .insufficientData n 3 else .ready := by
      intro n hn
      obtain ⟨hresets, hrenews, hlength, hsome⟩ := hquiet n hn
      obtain ⟨o, ho⟩ := Option.isSome_iff_exists.mp hsome
      have hg := gives_replay hresets ho
        (List.replicate (3 - n) event ++ [.touch .rebase, event])
      have hsplit : List.replicate n event ++ event ::
          (List.replicate (3 - n) event ++ [.touch .rebase, event]) =
            List.replicate 4 event ++ [.touch .rebase, event] := by
        obtain rfl | rfl | rfl | rfl : n = 0 ∨ n = 1 ∨ n = 2 ∨ n = 3 := by omega
        all_goals rfl
      rw [hsplit] at hg
      refine ⟨o, ho, hg, ?_⟩
      rw [(haccounted _ _ hg).streamed _ rfl hrenews, hlength]
      rfl
    refine ⟨fun n hn => ?_, ?_⟩
    · obtain ⟨o, -, hg, hstatus⟩ := hfilling n hn
      exact ⟨_, o, hg, (hquiet n hn).2.2.1, hstatus⟩
    · obtain ⟨o', ho', -, hready⟩ := hfilling 3 (by decide)
      let first : List Concern := List.replicate 4 event ++ [.touch .rebase]
      have hresets : ∀ y ∈ c.replay first, resets y = false := by decide +kernel
      obtain ⟨o, ho⟩ : ∃ o, ((c.after first).respond event).1.output? = some o :=
        Option.isSome_iff_exists.mp (by decide +kernel)
      have hg : Gives (c.replay (List.replicate 4 event ++ [.touch .rebase, event]))
          (c.replay first) o := gives_replay hresets ho []
      have hmem : o' ∈ outputs (c.replay first) := mem_outputs_replay ho' [.touch .rebase]
      exact ⟨_, o, hg, by decide +kernel, by decide +kernel,
        (haccounted _ _ hg).settled ⟨o', hmem, hready⟩⟩

end Registry

end MarketSignals
