import MarketSignals.Proofs.Alpha.Growth
import MarketSignals.Proofs.Float.Whole
import MarketSignals.Proofs.Json.Laws

/-!
# Where bins come from

Bins are checked when they are made from a range and a count, and every estimator has
bins of that kind.  Reading bins from a text makes no check: any finite bounds in any
order and any count that fits in 64 bits are read.  All that a bin index needs of them is
that there is a bin at all.

## Main definitions

* `Binning.Proper` — a finite range that is not empty, cut into two bins or more.
* `Binning.checkedIndex?` — the bin of a sample, where the last bin has to exist.

## Main results

* `of?_eq_some_iff` — what is made is proper.
* `Alpha.GrownFrom.proper_referenceBinning` — so is what an estimator goes by.
* `exists_text_iff` — what is read is anything that can be written.
* `proper_unless_read` — these together, with what they mean for an index.
-/

namespace MarketSignals

/-! ## Bins that are made -/

namespace Binning

variable {b : Binning}

/-- A finite range that is not empty, cut into two bins or more. -/
structure Proper (b : Binning) : Prop where
  min : b.min.isFinite = true
  max : b.max.isFinite = true
  lt : b.min < b.max
  nBins : 2 ≤ b.nBins

/-- Proper bins are made from their own range and count, and no others are made. -/
theorem of?_eq_some_iff {min max : Float} {n : Nat} :
    of? min max n = some b ↔ b = ⟨min, max, n⟩ ∧ b.Proper := by
  unfold of?
  constructor
  · intro h
    split at h
    next hok =>
      cases h
      simp only [Bool.and_eq_true, decide_eq_true_eq] at hok
      exact ⟨rfl, ⟨hok.1.1.1, hok.1.1.2, hok.1.2, hok.2⟩⟩
    · cases h
  · rintro ⟨rfl, h⟩
    rw [if_pos]
    simp only [Bool.and_eq_true, decide_eq_true_eq]
    exact ⟨⟨⟨h.min, h.max⟩, h.lt⟩, h.nBins⟩

end Binning

/-- Settings give proper bins. -/
theorem Regime.Config.proper_of_binning {c : Regime.Config} {b : Binning}
    (h : c.binning = .ok b) : b.Proper := by
  unfold binning at h
  split at h
  next b' hb =>
    cases h
    exact (Binning.of?_eq_some_iff.mp hb).2
  · cases h

/-- The bins of an estimator are proper, whatever has happened to it since it was
built. -/
theorem Alpha.GrownFrom.proper_referenceBinning {config : AlphaConfig} {fresh a : Alpha}
    (hbuild : config.build = .ok fresh) (h : GrownFrom fresh a) {b : Binning}
    (hb : a.referenceBinning = some b) : b.Proper := by
  cases h with
  | garch => cases hb
  | ofi => cases hb
  | @klRegime e₀ e _ _ inStep =>
      cases hb
      cases config with
      | garch c =>
          obtain ⟨_, _, h⟩ := map_eq_ok_iff.mp hbuild
          cases h
      | ofi c =>
          obtain ⟨_, _, h⟩ := map_eq_ok_iff.mp hbuild
          cases h
      | klRegime c =>
          obtain ⟨_, he, h⟩ := map_eq_ok_iff.mp hbuild
          cases h
          rw [mapError_eq_ok_iff, Regime.build_eq] at he
          obtain ⟨b, hv, rfl⟩ := map_eq_ok_iff.mp he
          rw [inStep.binning]
          exact Regime.Config.proper_of_binning (Regime.validate_eq_ok_iff.mp hv).2.1

/-! ## Bins that are read -/

namespace Binning

open Json (Plain plain_nil plain_cons bind_of_some record?_object)
open Json.Record (required?_encode writable_of_required?)

variable {b : Binning}

/-- Bins with finite bounds and a count that fits in 64 bits. -/
structure Writable (b : Binning) : Prop where
  min : b.min.isFinite = true
  max : b.max.isFinite = true
  nBins : b.nBins < UInt64.size

/-- The codec does not look at how the bounds and the count go together. -/
instance : Codec.Lawful Binning where
  Writable := Writable
  depth := 1
  plain_encode hb :=
    Plain.object <|
      plain_cons hb.min (by decide) <| plain_cons hb.max (by decide) <|
      plain_cons hb.nBins (by decide) plain_nil
  decode?_encode {b place} hb _ := by
    have hroom : 0 ≤ place.inside.room := Nat.zero_le _
    refine bind_of_some (record?_object place (.refl _) (by decide)) ?_
    refine bind_of_some (required?_encode rfl hb.min hroom) ?_
    refine bind_of_some (required?_encode rfl hb.max hroom) ?_
    refine bind_of_some (required?_encode rfl hb.nBins hroom) ?_
    rfl
  writable_of_decode? {place j b} h := by
    obtain ⟨r, -, h⟩ := Option.bind_eq_some_iff.mp h
    obtain ⟨min, hmin, h⟩ := Option.bind_eq_some_iff.mp h
    obtain ⟨max, hmax, h⟩ := Option.bind_eq_some_iff.mp h
    obtain ⟨nBins, hnBins, h⟩ := Option.bind_eq_some_iff.mp h
    cases h
    exact ⟨writable_of_required? hmin, writable_of_required? hmax, writable_of_required? hnBins⟩

/-- Bins are read from some text exactly if they can be written. -/
theorem exists_text_iff :
    (∃ text, Codec.read? Binning text = some b) ↔ b.Writable :=
  ⟨fun ⟨_, h⟩ => Codec.Lawful.writable_of_read? h,
    fun h => ⟨Codec.write b, Codec.Lawful.read?_write h (by decide)⟩⟩

/-! ## The bin of a sample -/

/-- Where a sample lies in the range, in bins. -/
def position (b : Binning) (sample : Float) : Float :=
  (sample - b.min) / ((b.max - b.min) / Float.ofNat b.nBins)

/-- The bin of a sample, where a position of one or more, or one that is not a number,
asks for the last bin, which has to exist. -/
def checkedIndex? (b : Binning) (sample : Float) : Option Nat :=
  if b.position sample < 1 then some 0
  else if b.nBins = 0 then none
  else some (Nat.min (b.position sample).toUInt64.toNat (b.nBins - 1))

/-- Where the last bin exists it need not be asked for. -/
theorem checkedIndex?_eq_indexOf (hb : 0 < b.nBins) (x : Float) :
    b.checkedIndex? x = some (b.indexOf x) := by
  unfold checkedIndex?
  split
  next hlow =>
    show some 0 = some (Nat.min (b.position x).toUInt64.toNat (b.nBins - 1))
    rw [Rounding.toNat_toUInt64_of_lt_one hlow]
    exact congrArg some (Nat.zero_min _).symm
  next hlow =>
    rw [if_neg (Nat.ne_of_gt hb)]
    rfl

/-- A sample has a bin if there is one. -/
theorem exists_index_iff :
    (∀ x, ∃ n < b.nBins, b.checkedIndex? x = some n) ↔ 0 < b.nBins := by
  constructor
  · intro h
    obtain ⟨n, hn, -⟩ := h 0
    omega
  · intro hb x
    exact ⟨b.indexOf x, indexOf_lt hb x, checkedIndex?_eq_indexOf hb x⟩

/-- When bins are as they should be, by where they come from:

1. made from a range and a count, they are the proper ones, and all of these;
2. an estimator that settings have built goes by proper bins at any time;
3. read from a text, they are the ones with finite bounds and a count that fits in 64
   bits, and nothing else is asked of them.

Wherever they come from, every sample, a float that is not a number included, has a bin
below the count, found without running out of bins, exactly if there is a bin at all. -/
theorem proper_unless_read (b : Binning) :
    (∀ min max n, of? min max n = some b ↔ b = ⟨min, max, n⟩ ∧ b.Proper) ∧
    (∀ (config : AlphaConfig) fresh a, config.build = .ok fresh → Alpha.GrownFrom fresh a →
      a.referenceBinning = some b → b.Proper) ∧
    ((∃ text, Codec.read? Binning text = some b) ↔ b.Writable) ∧
    ((∀ x, ∃ n < b.nBins, b.checkedIndex? x = some n) ↔ 0 < b.nBins) ∧
    (0 < b.nBins → ∀ x, b.checkedIndex? x = some (b.indexOf x)) := by
  refine ⟨?_, ?_, exists_text_iff, exists_index_iff, checkedIndex?_eq_indexOf⟩
  · intro min max n
    exact of?_eq_some_iff
  · intro config fresh a hbuild hgrown hb
    exact hgrown.proper_referenceBinning hbuild hb

/-- A detector after an event. -/
theorem proper_unless_read_detector :
    ∃ fresh, (AlphaConfig.klRegime Regime.shortWindow).build = .ok fresh ∧
      ∀ event b, (fresh.update event).2.referenceBinning = some b →
        b.Proper ∧ ∀ x, ∃ n < b.nBins, b.checkedIndex? x = some n := by
  have hv : (AlphaConfig.klRegime Regime.shortWindow).validate = .ok () := rfl
  obtain ⟨fresh, hbuild⟩ := Alpha.exists_build hv
  refine ⟨fresh, hbuild, ?_⟩
  intro event b hb
  obtain ⟨-, hgrown, -, hindex, -⟩ := proper_unless_read b
  have hproper := hgrown _ _ _ hbuild ((Alpha.grownFrom_of_build hbuild).update event) hb
  exact ⟨hproper, hindex.mpr (Nat.lt_of_lt_of_le (by decide) hproper.nBins)⟩

/-- A text gives bins that are not made: the bounds are the wrong way round, and no
sample has a bin below the count. -/
theorem read_without_bins :
    ∃ b, Codec.read? Binning "\x7b\"min\":5,\"max\":1,\"n_bins\":0\x7d" = some b ∧
      ¬ b.Proper ∧ ∀ x, ¬ b.indexOf x < b.nBins := by
  have hread : (Codec.read? Binning "\x7b\"min\":5,\"max\":1,\"n_bins\":0\x7d").any
      (·.nBins == 0) = true := by decide +kernel
  obtain ⟨b, hb, hnone⟩ := Option.any_eq_true _ _ |>.mp hread
  have hnone : b.nBins = 0 := eq_of_beq hnone
  refine ⟨b, hb, ?_, ?_⟩
  · intro h
    have hbins := h.nBins
    omega
  · intro x
    omega

end Binning

end MarketSignals
