import MarketSignals.Engine.Basic
import MarketSignals.Proofs.Registry.Enrolment

/-!
# Loading a configuration

An engine that is built from settings registers their estimators in order, in a registry
that nothing is ever removed from.  So the registry holds one slot behind the other, and
loading ends with the first registration that is refused.

## Main definitions

* `RegistrationConfig.Gives` — the slot that a registration asks for.
* `Engine.Holds` — what a host sees of an engine that holds a list of new slots.
* `Loading` — how loading may end, for every configuration.

## Main results

* `Engine.registerAll_enrolled` — registrations one after the other.
* `Engine.ofConfig_loading` — a whole configuration.
-/

namespace MarketSignals

variable {ε : Type}

/-- The names of a registration. -/
def RegistrationConfig.key (c : RegistrationConfig) : SlotKey := ⟨⟨c.alphaId⟩, ⟨c.instrumentId⟩⟩

/-- A slot is new, under the names of a registration, and has the estimator that the
settings build. -/
def RegistrationConfig.Gives [AlphaHost ε] (c : RegistrationConfig) (s : Slot ε) : Prop :=
  ∃ a, c.config.build = .ok a ∧ s = (freshSlot c.key a).host

/-! ## What a host sees -/

namespace Engine

variable {e : Engine ε} {slots : List (Slot ε)}

theorem ask_of_up {β : Type} (hup : e.isShutDown = false)
    (f : Registry ε → Except EngineError β) : e.ask f = (f e.registry).mapError .ofEngine := by
  unfold ask
  rw [hup]
  rfl

/-- What a host sees of an engine that holds new slots: each is reached by the handle of
its place, and nothing else is there. -/
structure Holds (slots : List (Slot ε)) (e : Engine ε) : Prop where
  slot_iff : ∀ {g s}, e.registry.slot g = .ok s ↔ ∃ n, slots[n]? = some s ∧ g = .nth n
  size_eq : e.registry.size = slots.length
  lookup_iff : ∀ {alphaId instrumentId g}, e.lookup alphaId instrumentId = .ok g ↔
    ∃ n s, slots[n]? = some s ∧ s.key = ⟨alphaId, instrumentId⟩ ∧ g = .nth n
  estimators_eq : ∀ i,
    e.estimators i = .ok ((placesOn slots i).map fun (s, n) => s.info (.nth n))
  latest_eq : ∀ n < slots.length, e.latest (.nth n) = .ok none

theorem holds_of_enrolled (hup : e.isShutDown = false) (h : e.registry.Enrolled slots) :
    e.Holds slots where
  slot_iff := Registry.slot_eq_ok_iff.trans h.get?_eq_some_iff
  size_eq := h.size_eq
  lookup_iff := by
    intro alphaId instrumentId g
    unfold lookup
    rw [ask_of_up hup, mapError_eq_ok_iff]
    exact h.lookup_eq_ok_iff
  estimators_eq := by
    intro i
    unfold estimators
    rw [ask_of_up hup, h.infosOn_eq]
    rfl
  latest_eq := by
    intro n hn
    have hs : e.registry.arena.get? (.nth n) = some slots[n] :=
      h.get?_eq_some_iff.mpr ⟨n, List.getElem?_eq_getElem hn, rfl⟩
    unfold latest Registry.latestOf
    rw [ask_of_up hup, Registry.slot_eq_ok_iff.mpr hs, h.latest]
    simp [Except.map, mapError_ok]

end Engine

/-! ## Registrations one after the other -/

section

variable [AlphaHost ε]

theorem RegistrationConfig.Gives.key_eq {c : RegistrationConfig} {s : Slot ε} (h : c.Gives s) :
    s.key = c.key := by
  obtain ⟨a, _, rfl⟩ := h
  rfl

/-- The slots that registrations ask for have their names. -/
theorem map_key_of_gives {cs : List RegistrationConfig} {slots : List (Slot ε)}
    (h : List.Forall₂ RegistrationConfig.Gives cs slots) :
    slots.map Slot.key = cs.map RegistrationConfig.key := by
  induction h with
  | nil => rfl
  | cons hgives _ ih => rw [List.map_cons, List.map_cons, hgives.key_eq, ih]

/-- Why a registration behind others is refused. -/
inductive Refusal (taken : List SlotKey) (c : RegistrationConfig) : HostError → Prop
  | repeated (isTaken : c.key ∈ taken) :
      Refusal taken c (.ofEngine (.duplicateRegistration c.alphaId c.instrumentId))
  | full (isNew : c.key ∉ taken) (isFull : taken.length = Arena.capacity) :
      Refusal taken c (.ofEngine (.invariant "estimator arena is full"))

namespace Engine

variable {e : Engine ε} {slots : List (Slot ε)} {c : RegistrationConfig}

theorem register_of_up (hup : e.isShutDown = false) (c : RegistrationConfig) :
    e.register ⟨c.alphaId⟩ ⟨c.instrumentId⟩ c.config =
      (registered "register" e.registry
        (e.registry.register c.key.alphaId c.key.instrumentId c.config)).map id
          fun registry => { e with registry } := by
  unfold register call
  rw [hup]
  rfl

variable [LawfulAlphaHost ε]

/-- A registration is added behind the others, or refused. -/
theorem register_enrolled (hup : e.isShutDown = false) (h : e.registry.Enrolled slots)
    {a : Alpha} (hb : c.config.build = .ok a) :
    (∃ s r g, c.Gives s ∧ r.Enrolled (slots ++ [s]) ∧
      e.register ⟨c.alphaId⟩ ⟨c.instrumentId⟩ c.config = (.ok g, { e with registry := r })) ∨
    ∃ error, Refusal (slots.map Slot.key) c error ∧
      e.register ⟨c.alphaId⟩ ⟨c.instrumentId⟩ c.config = (.error error, e) := by
  rw [register_of_up hup]
  by_cases hk : c.key ∈ slots.map Slot.key
  · rw [h.register_repeated hb hk]
    exact .inr ⟨_, .repeated hk, rfl⟩
  rcases Nat.lt_or_eq_of_le h.length_le with hroom | hfull
  · obtain ⟨r, hregister, henrolled⟩ := h.register_new hb hk hroom
    rw [hregister]
    exact .inl ⟨_, r, _, ⟨a, hb, rfl⟩, henrolled, rfl⟩
  · rw [h.register_full hb hk hfull]
    exact .inr ⟨_, .full hk (by rw [List.length_map, hfull]), rfl⟩

/-- Registrations are added one after the other, up to the first that is refused. -/
theorem registerAll_enrolled (hup : e.isShutDown = false) (h : e.registry.Enrolled slots)
    {cs : List RegistrationConfig} (hb : ∀ c ∈ cs, ∃ a, c.config.build = .ok a) :
    (∃ (news : List (Slot ε)) (r : Registry ε), List.Forall₂ RegistrationConfig.Gives cs news ∧
      r.Enrolled (slots ++ news) ∧ e.registerAll cs = .ok { e with registry := r }) ∨
    ∃ (before : List RegistrationConfig) (c : RegistrationConfig)
      (after : List RegistrationConfig) (news : List (Slot ε)) (r : Registry ε) (error : HostError),
      cs = before ++ c :: after ∧ List.Forall₂ RegistrationConfig.Gives before news ∧
      r.Enrolled (slots ++ news) ∧ Refusal ((slots ++ news).map Slot.key) c error ∧
      e.registerAll cs = .error error := by
  induction cs generalizing e slots with
  | nil => exact .inl ⟨[], e.registry, .nil, by rwa [List.append_nil], rfl⟩
  | cons c cs ih =>
      obtain ⟨a, hbuild⟩ := hb c List.mem_cons_self
      rcases register_enrolled hup h hbuild with ⟨s, r, g, hgives, henrolled, hregister⟩ |
        ⟨error, hrefusal, hregister⟩
      · have hrest :
            e.registerAll (c :: cs) = ({ e with registry := r } : Engine ε).registerAll cs := by
          rw [registerAll, hregister]
        have happend : ∀ news, slots ++ [s] ++ news = slots ++ s :: news := fun news =>
          List.append_cons slots s news ▸ rfl
        rcases ih (e := { e with registry := r }) hup henrolled
            (fun c hc => hb c (List.mem_cons_of_mem _ hc)) with
          ⟨news, r', hall, henrolled', hok⟩ |
          ⟨before, c', after, news, r', error, rfl, hall, henrolled', hrefusal, herror⟩
        · rw [happend] at henrolled'
          exact .inl ⟨s :: news, r', .cons hgives hall, henrolled', hrest.trans hok⟩
        · rw [happend] at henrolled' hrefusal
          exact .inr ⟨c :: before, c', after, s :: news, r', error, rfl, .cons hgives hall,
            henrolled', hrefusal, hrest.trans herror⟩
      · refine .inr ⟨[], c, cs, [], e.registry, error, rfl, .nil, ?_, ?_, ?_⟩
        · rwa [List.append_nil]
        · rwa [List.append_nil]
        · rw [registerAll, hregister]

end Engine

/-! ## A whole configuration -/

/-- How loading a configuration may end. -/
inductive Loading (c : EngineConfig) : Except HostError (Engine ε) → Prop
  /-- The settings are not accepted. -/
  | invalid {error : ConfigError} (isInvalid : c.validate = .error error) :
      Loading c (.error (.invalidInput error.message))
  /-- The settings are accepted, and a registration behind distinct ones is refused. -/
  | refused {before after : List RegistrationConfig} {reg : RegistrationConfig}
      {error : HostError} (isValid : c.validate = .ok ())
      (split : c.registrations = before ++ reg :: after)
      (distinct : (before.map RegistrationConfig.key).Nodup)
      (refusal : Refusal (before.map RegistrationConfig.key) reg error) : Loading c (.error error)
  /-- The settings are accepted, and every registration gives its slot. -/
  | loaded {e : Engine ε} {slots : List (Slot ε)} (isValid : c.validate = .ok ())
      (distinct : (c.registrations.map RegistrationConfig.key).Nodup)
      (room : c.registrations.length ≤ Arena.capacity)
      (gives : List.Forall₂ RegistrationConfig.Gives c.registrations slots)
      (holds : e.Holds slots)
      (settings : e.batch = c.batch ∧ e.health = c.health ∧ e.isHealthy = true) : Loading c (.ok e)

/-- Accepted settings of an engine have estimators that can be built. -/
theorem EngineConfig.exists_build_of_validate {c : EngineConfig} (hv : c.validate = .ok ())
    {reg : RegistrationConfig} (hreg : reg ∈ c.registrations) :
    ∃ a, reg.config.build = .ok a := by
  unfold validate at hv
  split at hv
  · cases hv
  have hregistration := forM_eq_ok_iff.mp hv reg hreg
  unfold RegistrationConfig.validate at hregistration
  split at hregistration
  · cases hregistration
  · exact Alpha.exists_build (mapError_eq_ok_iff.mp hregistration)

namespace Engine

variable [LawfulAlphaHost ε]

/-- Every configuration ends in one of the ways that there are. -/
theorem loading_ofConfig (c : EngineConfig) :
    Loading c (ofConfig c : Except HostError (Engine ε)) := by
  unfold ofConfig
  cases hv : c.validate with
  | error error => exact .invalid hv
  | ok _ =>
      have hbuild := fun reg (hreg : reg ∈ c.registrations) =>
        EngineConfig.exists_build_of_validate hv hreg
      rcases registerAll_enrolled (e := (start c.batch c.health : Engine ε)) rfl
          Registry.enrolled_empty hbuild with
        ⟨slots, r, hgives, henrolled, hok⟩ |
          ⟨before, reg, after, slots, r, error, hsplit, hgives, henrolled, hrefusal, herror⟩
      · rw [List.nil_append] at henrolled
        have hkeys := map_key_of_gives hgives
        show Loading c (registerAll (start c.batch c.health) c.registrations)
        rw [hok]
        exact .loaded hv (hkeys ▸ henrolled.keys_nodup) (hgives.length_eq ▸ henrolled.length_le)
          hgives (holds_of_enrolled rfl henrolled) ⟨rfl, rfl, rfl⟩
      · rw [List.nil_append] at henrolled hrefusal
        have hkeys := map_key_of_gives hgives
        show Loading c (registerAll (start c.batch c.health) c.registrations)
        rw [herror]
        exact .refused hv hsplit (hkeys ▸ henrolled.keys_nodup) (hkeys ▸ hrefusal)

end Engine

/-- A registration is refused only where a pair of names comes a second time, or where
there are more registrations than handles. -/
theorem Refusal.not_distinct_or_room {before after : List RegistrationConfig}
    {reg : RegistrationConfig} {error : HostError}
    (h : Refusal (before.map RegistrationConfig.key) reg error) :
    ¬ (((before ++ reg :: after).map RegistrationConfig.key).Nodup ∧
      (before ++ reg :: after).length ≤ Arena.capacity) := by
  rintro ⟨hdistinct, hroom⟩
  cases h with
  | repeated isTaken =>
      rw [List.map_append, List.map_cons] at hdistinct
      exact (List.nodup_append.mp hdistinct).2.2 _ isTaken _ List.mem_cons_self rfl
  | full _ isFull =>
      rw [List.length_map] at isFull
      rw [List.length_append, List.length_cons] at hroom
      omega

namespace Engine

variable [LawfulAlphaHost ε]

/-- There is an engine exactly where the settings are accepted and their pairs of names are
distinct and not too many. -/
theorem exists_ofConfig_iff (c : EngineConfig) :
    (∃ e : Engine ε, ofConfig c = .ok e) ↔
      c.validate = .ok () ∧ (c.registrations.map RegistrationConfig.key).Nodup ∧
        c.registrations.length ≤ Arena.capacity := by
  have hloading : Loading c (ofConfig c : Except HostError (Engine ε)) := loading_ofConfig c
  constructor
  · rintro ⟨e, he⟩
    rw [he] at hloading
    cases hloading with
    | loaded isValid distinct room => exact ⟨isValid, distinct, room⟩
  · rintro ⟨hv, hdistinct, hroom⟩
    cases he : (ofConfig c : Except HostError (Engine ε)) with
    | ok e => exact ⟨e, rfl⟩
    | error error =>
        rw [he] at hloading
        cases hloading with
        | invalid isInvalid =>
            rw [hv] at isInvalid
            cases isInvalid
        | refused _ split _ refusal =>
            rw [split] at hdistinct hroom
            exact absurd ⟨hdistinct, hroom⟩ refusal.not_distinct_or_room

/-- An engine is loaded from a configuration exactly if the configuration is accepted, its
pairs of names are distinct, and handles can tell its registrations apart.  It then holds
exactly the estimators that the settings build, in their order; otherwise the error is the
one of the check, or names the first pair that comes a second time.  The check of an
estimator's settings comes to what building the estimator comes to. -/
theorem ofConfig_loading (c : EngineConfig) :
    (∀ config : AlphaConfig, config.validate = config.build.map fun _ => ()) ∧
    ((∃ e : Engine ε, ofConfig c = .ok e) ↔
      c.validate = .ok () ∧ (c.registrations.map RegistrationConfig.key).Nodup ∧
        c.registrations.length ≤ Arena.capacity) ∧
    Loading c (ofConfig c : Except HostError (Engine ε)) :=
  ⟨Alpha.validate_eq_map_build, exists_ofConfig_iff c, loading_ofConfig c⟩

/-- Two estimators on one instrument. -/
def twoOnX : List RegistrationConfig :=
  [⟨"a", "X", .ofi { marketCap := 10 }⟩, ⟨"b", "X", .klRegime Regime.shortWindow⟩]

theorem ofConfig_loading_twoOnX :
    (∃ e : Engine Alpha, ofConfig { registrations := twoOnX } = .ok e) ∧
      ¬ ∃ e : Engine Alpha, ofConfig { registrations := twoOnX ++ twoOnX } = .ok e := by
  obtain ⟨-, honce, -⟩ := ofConfig_loading (ε := Alpha) { registrations := twoOnX }
  obtain ⟨-, htwice, -⟩ := ofConfig_loading (ε := Alpha) { registrations := twoOnX ++ twoOnX }
  refine ⟨honce.mpr ⟨rfl, by decide, by decide⟩, fun h => ?_⟩
  exact absurd (htwice.mp h).2.1 (by decide)

end Engine

end

end MarketSignals
