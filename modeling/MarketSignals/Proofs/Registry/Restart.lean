import MarketSignals.Proofs.Registry.Tenure

/-!
# A reset is a fresh start

Whatever has become of a registration, a reset that succeeds leaves what a new
registration of the same settings under the same names would find: the slot, enabled,
with the estimator that the settings build, and no output.  So from there on the two
cannot be told apart.

## Main results

* `Cell.info_respond` — the description of a registration does not change.
* `Cell.act_reset_eq` — a reset of a cell.
* `reset_is_fresh_start` — every registration, and everything that follows its reset.
-/

namespace MarketSignals

/-! ## What stays with a registration -/

section

variable {ε : Type} (s : Slot ε) (h : Handle)

theorem Slot.info_absorb {β : Type} (p : Except Fault β × ε) :
    (s.absorb p).2.info h = s.info h := by
  unfold absorb
  split <;> rfl

theorem Slot.info_guarded {β : Type} (f : ε → Except Fault β × ε) :
    (s.guarded f).2.info h = s.info h := by
  unfold guarded
  split
  · rfl
  · exact info_absorb s h _

end

namespace Cell

variable {P : Alpha → Prop} {c : Cell Alpha} {k : SlotKey} {fresh : Alpha}

theorem info_feed (c : Cell Alpha) (event : MarketEvent) (h : Handle) :
    (c.feed event).2.slot.info h = c.slot.info h := by
  rw [slot_feed]
  split
  · rfl
  · exact Slot.info_absorb c.slot h _

/-- Names, family and fields stay what they were at the registration. -/
theorem info_respond (c : Cell Alpha) (k : Concern) (h : Handle) :
    (c.respond k).2.slot.info h = c.slot.info h := by
  cases k with
  | event event =>
      show (c.offer event).2.slot.info h = _
      unfold offer
      split
      · exact info_feed c event h
      · rfl
  | touch t =>
      cases t with
      | update event =>
          show (c.update event).2.slot.info h = _
          unfold Cell.update
          split
          · rfl
          · split
            · rfl
            · exact info_feed c event h
      | reset => rfl
      | rebase => exact Slot.info_guarded c.slot h Estimator.rebase
      | referenceBinning => exact Slot.info_guarded c.slot h binningOf
      | installReference counts =>
          exact Slot.info_guarded c.slot h (Estimator.installReference · counts)
      | latest => rfl

theorem info_after (c : Cell Alpha) (ks : List Concern) (h : Handle) :
    (c.after ks).slot.info h = c.slot.info h := by
  induction ks generalizing c with
  | nil => rfl
  | cons k rest ih => exact (ih _).trans (info_respond c k h)

theorem closed_after (hP : Alpha.Closed P) (hc : P c.slot.estimator) (ks : List Concern) :
    P (c.after ks).slot.estimator := by
  induction ks generalizing c with
  | nil => exact hc
  | cons k rest ih => exact ih (closed_respond hP hc k)

/-- A reset of what a fresh estimator has become leaves the cell of a new
registration, disabled or not. -/
theorem act_reset_eq (hgrown : Alpha.GrownFrom fresh c.slot.estimator)
    (hinfo : ∀ h, c.slot.info h = (freshSlot k fresh).info h) :
    c.act .reset = (.ok .done, freshCell k fresh) := by
  obtain ⟨⟨alphaId, i, kind, fields, a, disabled⟩, latest⟩ := c
  have hsame := hinfo ⟨0, 0⟩
  cases hsame
  show (Except.ok Registry.Reply.done, (⟨⟨_, _, _, _, a.reset, false⟩, none⟩ : Cell Alpha)) = _
  rw [hgrown.reset_eq]
  rfl

end Cell

namespace Registry

variable {ε : Type} [AlphaHost ε] [LawfulAlphaHost ε] {r r' : Registry ε} {h : Handle}
  {steps : List (Step ε)} {config : AlphaConfig} {k : SlotKey} {fresh : Alpha}

/-- What a registration of settings has become: a cell of what the settings build. -/
theorem Tenure.grownFrom (ht : Tenure config k h steps r) (hb : config.build = .ok fresh)
    {d : Cell ε} (hd : r.cell? h = some d) :
    ∃ c : Cell Alpha, d = c.host ∧ Alpha.GrownFrom fresh c.slot.estimator ∧
      ∀ g, c.slot.info g = (freshSlot k fresh).info g := by
  obtain ⟨_, _, hleft⟩ := ht.observed_eq hb
  refine ⟨_, hleft d hd, ?_, fun g => Cell.info_after _ _ g⟩
  exact Cell.closed_after (Alpha.closed_grownFrom fresh) (Alpha.grownFrom_of_build hb) _

/-- A reset of a registration leaves the cell of a new one. -/
theorem Tenure.perform_reset (ht : Tenure config k h steps r) (hb : config.build = .ok fresh)
    {d : Cell ε} (hd : r.cell? h = some d) :
    ∃ r', r.perform (.reset h) = (.ok .done, r') ∧ r'.WellFormed ∧
      r'.cell? h = some (freshCell k fresh).host := by
  obtain ⟨c, rfl, hgrown, hinfo⟩ := ht.grownFrom hb hd
  have hne : ∀ event, Touch.reset ≠ .update event := fun event heq => by cases heq
  have hperform : r.perform (.reset h) = (.ok .done, r.put h (freshCell k fresh).host) := by
    show r.perform (Touch.reset.on h) = _
    rw [perform_touch_of_ne_update hd hne, Cell.act_host c hne, Cell.act_reset_eq hgrown hinfo]
    rfl
  refine ⟨_, hperform, perform_wellFormed (ht.observed_eq hb).1 hperform, ?_⟩
  rw [cell?_put hd, if_pos rfl]

/-- A reset is a fresh start.  For settings that are accepted, whatever has become of a
registration of theirs, a reset succeeds and leaves the slot of a new registration with
no output: of an estimator that has every part put back and is as it was built.  What
the registration gives and leaves from there on is what any new registration does for
which the same things are done. -/
theorem reset_is_fresh_start (hv : config.validate = .ok ()) :
    ∃ fresh, config.build = .ok fresh ∧
      ∀ {k : SlotKey} {h : Handle} {steps : List (Step ε)} {r : Registry ε} {s : Slot ε},
        Tenure config k h steps r → r.arena.get? h = some s →
          (∃ a, s.estimator = AlphaHost.ofAlpha a ∧ a.cleared = fresh) ∧
          ∃ r', r.perform (.reset h) = (.ok .done, r') ∧
            r'.arena.get? h = some (freshSlot k fresh).host ∧ r'.latestOf h = .ok none ∧
            ∀ {more : List (Step ε)} {r₂ : Registry ε} {g : Handle} {others : List (Step ε)}
              {q : Registry ε}, Stays h r' more r₂ → Tenure config k g others q →
                concerns h k.instrumentId more = concerns g k.instrumentId others →
                  observed h k.alphaId k.instrumentId more =
                      observed g k.alphaId k.instrumentId others ∧
                    ∀ c d, r₂.cell? h = some c → q.cell? g = some d → c = d := by
  obtain ⟨fresh, hb⟩ := Alpha.exists_build hv
  refine ⟨fresh, hb, ?_⟩
  intro k h steps r s ht hs
  have hd := cell?_of_get? hs
  obtain ⟨c, hhost, hgrown, _⟩ := ht.grownFrom hb hd
  obtain ⟨r', hreset, wf', hcell⟩ := ht.perform_reset hb hd
  refine ⟨⟨c.slot.estimator, congrArg (·.slot.estimator) hhost, hgrown.cleared_eq⟩, r', hreset,
    (cell?_eq_some_iff.mp hcell).1, latestOf_of_cell hcell, ?_⟩
  intro more r₂ g others q hmore hothers hsame
  obtain ⟨hobserved, hleft⟩ := hmore.observed_eq (c := freshCell k fresh) wf' fun d hd => by
    rw [hcell] at hd
    exact (Option.some.inj hd).symm
  obtain ⟨_, hobserved', hleft'⟩ := hothers.observed_eq hb
  refine ⟨?_, fun c d hc hd => ?_⟩
  · rw [hobserved', ← hsame]
    exact hobserved
  · rw [hleft c hc, hleft' d hd, ← hsame]
    rfl

/-- Calls that leave a detector with a history: events that are accepted and refused,
counts from elsewhere, a test, and a rebase. -/
def usedCalls : List (Call Alpha) :=
  [.dispatch (quote "X" 10), .dispatch (quote "X" 12), .installReference ⟨0, 0⟩ [1, 0, 2, 0],
    .update ⟨0, 0⟩ ⟨⟨2⟩, ⟨"X"⟩, -1, 5, 101, 5, none⟩, .dispatch (quote "X" 7), .dispatch (quote "X" 3),
    .rebase ⟨0, 0⟩, .dispatch (quote "X" 4), .latest ⟨0, 0⟩]

/-- Calls that follow a reset. -/
def resumedCalls : List (Call Alpha) :=
  [.latest ⟨0, 0⟩, .rebase ⟨0, 0⟩, .update ⟨0, 0⟩ (quote "X" 10), .dispatch (quote "X" 12),
    .referenceBinning ⟨0, 0⟩, .latest ⟨0, 0⟩]

theorem reset_is_fresh_start_shortWindow :
    (AlphaConfig.klRegime Regime.shortWindow).validate = .ok () ∧
      ∃ fresh, (AlphaConfig.klRegime Regime.shortWindow).build = .ok fresh ∧
        ∃ steps r r', Tenure (.klRegime Regime.shortWindow) ⟨⟨"a"⟩, ⟨"X"⟩⟩ ⟨0, 0⟩ steps r ∧
          steps.map (·.call) = usedCalls ∧ r.perform (.reset ⟨0, 0⟩) = (.ok .done, r') ∧
          r'.arena.get? ⟨0, 0⟩ = some (freshSlot ⟨⟨"a"⟩, ⟨"X"⟩⟩ fresh) ∧
          ∃ others q, Tenure (.klRegime Regime.shortWindow) ⟨⟨"a"⟩, ⟨"X"⟩⟩ ⟨0, 0⟩ others q ∧
            others.map (·.call) = resumedCalls ∧
            observed ⟨0, 0⟩ ⟨"a"⟩ ⟨"X"⟩ (r'.performAll resumedCalls).1 =
              observed ⟨0, 0⟩ ⟨"a"⟩ ⟨"X"⟩ others := by
  have hv : (AlphaConfig.klRegime Regime.shortWindow).validate = .ok () := by rfl
  refine ⟨hv, ?_⟩
  obtain ⟨fresh, hb, hreset⟩ := reset_is_fresh_start (ε := Alpha) hv
  obtain ⟨steps, r, ht, hsteps, c, hc⟩ := exists_tenure hb ⟨⟨"a"⟩, ⟨"X"⟩⟩ usedCalls
    (by simp [usedCalls, Call.Removes])
  obtain ⟨others, q, ht', hothers, _⟩ := exists_tenure hb ⟨⟨"a"⟩, ⟨"X"⟩⟩ resumedCalls
    (by simp [resumedCalls, Call.Removes])
  obtain ⟨_, r', hperform, hslot, _, hsame⟩ := hreset ht (cell?_eq_some_iff.mp hc).1
  have wf' := perform_wellFormed (ht.observed_eq hb).1 hperform
  obtain ⟨hstays, _⟩ := stays_performAll wf' (cell?_of_get? hslot) resumedCalls
    (by simp [resumedCalls, Call.Removes])
  refine ⟨fresh, hb, steps, r, r', ht, hsteps, hperform, hslot, others, q, ht', hothers, ?_⟩
  refine (hsame hstays ht' ?_).1
  rw [concerns_eq, concerns_eq, map_call_performAll, hothers]

end Registry

end MarketSignals
