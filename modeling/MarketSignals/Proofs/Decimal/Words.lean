import Mathlib.Algebra.Group.Nat.Defs
import MarketSignals.Decimal.Binary

/-!
# Floats and their words

A finite float other than zero is a sign and a dyadic number in canonical form: as many
mantissa bits as the exponent leaves room for.  This module goes from the one to the other
and back, through the fields of the sixty-four bits.

## Main definitions

* `Dyadic.Canonical` — the dyadic numbers that are magnitudes of floats.
* `Dyadic.float` — the float with a given sign and magnitude.

## Main results

* `unpack_float` — the float has the sign and the magnitude it was made from.
* `eq_float_of_finite` — every float that is read as finite is one of these.
-/

namespace MarketSignals.Decimal

open Float.Model (Format UnpackedFloat)
open Float.Model.UnpackedFloat (Sign packComponents unpackMantissa unpackExponent unpackSign
  unpackMantissa_packComponents unpackExponent_packComponents)

/-! ## The fields of a word -/

theorem toNat_packComponents (s : Sign) (e : BitVec 11) (m : BitVec 52) :
    (packComponents Format.binary64 s e m).toNat =
      s.toBitVec.toNat * 2 ^ 63 + e.toNat * 2 ^ 52 + m.toNat := by
  unfold packComponents
  rw [BitVec.toNat_append, BitVec.toNat_append, ← Nat.shiftLeft_add_eq_or_of_lt e.isLt,
    ← Nat.shiftLeft_add_eq_or_of_lt m.isLt, Nat.shiftLeft_eq, Nat.shiftLeft_eq]
  show (s.toBitVec.toNat * 2 ^ 11 + e.toNat) * 2 ^ 52 + m.toNat = _
  omega

theorem toNat_unpackExponent (b : BitVec 64) :
    (@unpackExponent Format.binary64 b).toNat = b.toNat / 2 ^ 52 % 2 ^ 11 := by
  show b.toNat >>> 52 % 2 ^ 11 = _
  rw [Nat.shiftRight_eq_div_pow]

theorem toNat_unpackSign (b : BitVec 64) :
    (@unpackSign Format.binary64 b).toNat = b.toNat / 2 ^ 63 := by
  have hb : b.toNat < 2 ^ 64 := b.isLt
  show b.toNat >>> 63 % 2 ^ 1 = _
  rw [Nat.shiftRight_eq_div_pow]
  omega

theorem unpackSign_packComponents (s : Sign) (e : BitVec 11) (m : BitVec 52) :
    @unpackSign Format.binary64 (packComponents Format.binary64 s e m) = s.toBitVec := by
  have he : e.toNat < 2 ^ 11 := e.isLt
  have hm : m.toNat < 2 ^ 52 := m.isLt
  refine BitVec.eq_of_toNat_eq ?_
  rw [toNat_unpackSign, toNat_packComponents]
  omega

theorem toNat_implicit (m : BitVec 52) : (1#1 ++ m).toNat = 2 ^ 52 + m.toNat := by
  rw [BitVec.toNat_append, ← Nat.shiftLeft_add_eq_or_of_lt m.isLt, Nat.shiftLeft_eq]
  rfl

theorem finite_congr {s t : Sign} {m n : Nat} {e f : Int} {hm : 0 < m} {hn : 0 < n} (hst : s = t)
    (hmn : m = n) (hef : e = f) : UnpackedFloat.finite s m e hm = .finite t n f hn := by
  subst hst hmn hef
  rfl

theorem ofBitVec_unpackSign (s : Sign) (e : BitVec 11) (m : BitVec 52) :
    Sign.ofBitVec (@unpackSign Format.binary64 (packComponents Format.binary64 s e m)) = s := by
  rw [unpackSign_packComponents]
  cases s <;> rfl

/-- A word with neither the least nor the greatest exponent field. -/
theorem unpack_packComponents_normal (s : Sign) {e : BitVec 11} (m : BitVec 52)
    (hleast : e ≠ 0#11) (hgreatest : e ≠ -1#11) :
    ∃ h, UnpackedFloat.unpack Format.binary64 (packComponents Format.binary64 s e m) =
      .finite s (2 ^ 52 + m.toNat) ((e.toNat : Int) - 1075) h := by
  refine ⟨by omega, ?_⟩
  unfold UnpackedFloat.unpack
  dsimp only
  rw [unpackExponent_packComponents, if_neg hgreatest, if_neg hleast]
  refine finite_congr (ofBitVec_unpackSign s e m) ?_ rfl
  rw [unpackMantissa_packComponents, toNat_implicit]

/-- A word with the least exponent field and a mantissa. -/
theorem unpack_packComponents_subnormal (s : Sign) {m : BitVec 52} (hm : m ≠ 0#52) :
    ∃ h, UnpackedFloat.unpack Format.binary64 (packComponents Format.binary64 s 0#11 m) =
      .finite s m.toNat (-1074) h := by
  have hpos : 0 < m.toNat := Nat.pos_of_ne_zero fun h => hm (BitVec.eq_of_toNat_eq h)
  refine ⟨hpos, ?_⟩
  have hmantissa : @unpackMantissa Format.binary64 (packComponents Format.binary64 s 0#11 m) ≠
      0#52 := by
    rw [unpackMantissa_packComponents]
    exact hm
  unfold UnpackedFloat.unpack
  dsimp only
  rw [unpackExponent_packComponents, if_neg (by decide), if_pos rfl, dif_neg hmantissa]
  refine finite_congr (ofBitVec_unpackSign s 0#11 m) ?_ rfl
  rw [unpackMantissa_packComponents]

/-- Floats with the same bits are the same. -/
theorem eq_of_toBits_eq {x y : Float} (h : x.toBits = y.toBits) : x = y := by
  obtain ⟨⟨bits, valid⟩⟩ := x
  obtain ⟨⟨bits', valid'⟩⟩ := y
  cases (show bits = bits' from h)
  rfl

/-! ## Canonical magnitudes -/

/-- The magnitude of a finite float other than zero: the mantissa has fifty-three bits
unless the exponent is the least one. -/
structure Dyadic.Canonical (d : Dyadic) : Prop where
  pos : 0 < d.mantissa
  lt : d.mantissa < 2 ^ 53
  least : -1074 ≤ d.exponent
  greatest : d.exponent ≤ 971
  normal : 2 ^ 52 ≤ d.mantissa ∨ d.exponent = -1074

/-- A sign as a model of floats has it. -/
def signOf (negative : Bool) : Sign := if negative then .negative else .positive

/-- The finite float with a sign and a magnitude, unpacked. -/
def Dyadic.unpacked (d : Dyadic) (hd : d.Canonical) (negative : Bool) : UnpackedFloat :=
  .finite (signOf negative) d.mantissa d.exponent hd.pos

/-- The finite float with a sign and a magnitude. -/
def Dyadic.float (d : Dyadic) (hd : d.Canonical) (negative : Bool) : Float :=
  .ofModel (.pack (d.unpacked hd negative))

namespace Dyadic.Canonical

theorem subnormal {m : Nat} (hpos : 0 < m) (hlt : m < 2 ^ 52) : Canonical ⟨m, -1074⟩ where
  pos := hpos
  lt := Nat.lt_trans hlt (by decide)
  least := Int.le_refl _
  greatest := (by decide : (-1074 : Int) ≤ 971)
  normal := .inr rfl

theorem normalized {m : Nat} {e : Int} (hnormal : 2 ^ 52 ≤ m) (hlt : m < 2 ^ 53)
    (hleast : -1074 ≤ e) (hgreatest : e ≤ 971) : Canonical ⟨m, e⟩ where
  pos := Nat.lt_of_lt_of_le (by decide) hnormal
  lt := hlt
  least := hleast
  greatest := hgreatest
  normal := .inl hnormal

variable {d : Dyadic}

theorem log2_lt (hd : d.Canonical) : d.mantissa.log2 < 53 :=
  (Nat.log2_lt (Nat.ne_of_gt hd.pos)).mpr hd.lt

theorem log2_eq_iff (hd : d.Canonical) : d.mantissa.log2 + 1 = 53 ↔ 2 ^ 52 ≤ d.mantissa := by
  have hlt := hd.log2_lt
  rw [← Nat.le_log2 (Nat.ne_of_gt hd.pos)]
  omega

/-- The word of a normal float: the leading bit of the mantissa is left out. -/
theorem pack_normal (hd : d.Canonical) (hnormal : 2 ^ 52 ≤ d.mantissa) (negative : Bool) :
    UnpackedFloat.pack Format.binary64 (d.unpacked hd negative) =
      packComponents Format.binary64 (signOf negative)
        (BitVec.ofNat 11 (d.exponent + 1075).toNat) (BitVec.ofNat 52 d.mantissa) := by
  have hleast := hd.least
  have hgreatest := hd.greatest
  have hexponent : (d.exponent + (Format.binary64.exponentBias : Nat) +
      (Format.binary64.mantissaBitsWithoutImplicit : Nat)).toNat = (d.exponent + 1075).toNat := by
    show (d.exponent + (1023 : Nat) + (52 : Nat)).toNat = _
    omega
  have hfinite : ¬2 ^ Format.binary64.exponentBits ≤ (d.exponent + 1075).toNat + 1 := by
    show ¬2 ^ 11 ≤ _
    omega
  unfold Dyadic.unpacked UnpackedFloat.pack
  dsimp only
  rw [hexponent, if_neg hfinite]
  exact if_pos (hd.log2_eq_iff.mpr hnormal)

/-- The word of a subnormal float: its mantissa. -/
theorem pack_subnormal (hd : d.Canonical) (hsubnormal : d.mantissa < 2 ^ 52) (negative : Bool) :
    UnpackedFloat.pack Format.binary64 (d.unpacked hd negative) =
      packComponents Format.binary64 (signOf negative) 0#11 (BitVec.ofNat 52 d.mantissa) := by
  have hleast : d.exponent = -1074 := hd.normal.resolve_left (by omega)
  have hlog : ¬d.mantissa.log2 + 1 = Format.binary64.mantissaBits := by
    intro h
    have := hd.log2_eq_iff.mp h
    omega
  unfold Dyadic.unpacked UnpackedFloat.pack
  dsimp only
  rw [hleast, if_neg (by decide), if_neg hlog]

end Dyadic.Canonical

theorem toNat_ofNat_of_lt {n w : Nat} (h : n < 2 ^ w) : (BitVec.ofNat w n).toNat = n := by
  rw [BitVec.toNat_ofNat, Nat.mod_eq_of_lt h]

/-- The float has the sign and the magnitude it was made from. -/
theorem unpack_float {d : Dyadic} (hd : d.Canonical) (negative : Bool) :
    (d.float hd negative).toModel.unpack = d.unpacked hd negative := by
  have hleast := hd.least
  have hgreatest := hd.greatest
  have hlt := hd.lt
  have hpos := hd.pos
  show UnpackedFloat.unpack Format.binary64
    (UnpackedFloat.pack Format.binary64 (d.unpacked hd negative)) = _
  by_cases hnormal : 2 ^ 52 ≤ d.mantissa
  · have hbiased : (BitVec.ofNat 11 (d.exponent + 1075).toNat).toNat =
        (d.exponent + 1075).toNat := toNat_ofNat_of_lt (by omega)
    obtain ⟨h, hunpack⟩ := unpack_packComponents_normal (signOf negative)
      (BitVec.ofNat 52 d.mantissa) (e := BitVec.ofNat 11 (d.exponent + 1075).toNat)
      (by
        intro h
        have hzero : (d.exponent + 1075).toNat = 0 := hbiased ▸ congrArg BitVec.toNat h
        omega)
      (by
        intro h
        have hones : (d.exponent + 1075).toNat = 2047 := hbiased ▸ congrArg BitVec.toNat h
        omega)
    rw [hd.pack_normal hnormal, hunpack]
    unfold Dyadic.unpacked
    refine finite_congr rfl ?_ ?_
    · rw [BitVec.toNat_ofNat]
      omega
    · omega
  · obtain ⟨h, hunpack⟩ := unpack_packComponents_subnormal (signOf negative)
      (m := BitVec.ofNat 52 d.mantissa)
      (by
        intro h
        have hzero : d.mantissa = 0 :=
          toNat_ofNat_of_lt (by omega : d.mantissa < 2 ^ 52) ▸ congrArg BitVec.toNat h
        omega)
    rw [hd.pack_subnormal (by omega), hunpack]
    unfold Dyadic.unpacked
    exact finite_congr rfl (toNat_ofNat_of_lt (by omega)) (hd.normal.resolve_left hnormal).symm

theorem isFinite_float {d : Dyadic} (hd : d.Canonical) (negative : Bool) :
    (d.float hd negative).isFinite = true := by
  show (d.float hd negative).toModel.unpack.isFinite = true
  rw [unpack_float]
  rfl

/-- Negation gives the other sign to the same magnitude. -/
theorem neg_float {d : Dyadic} (hd : d.Canonical) (negative : Bool) :
    -(d.float hd negative) = d.float hd (!negative) := by
  show Float.ofModel (.pack (d.float hd negative).toModel.unpack.neg) = _
  rw [unpack_float]
  cases negative <;> rfl

/-! ## Every finite float -/

/-- The bits of a float as a number. -/
theorem toNat_toBits_float_normal {d : Dyadic} (hd : d.Canonical)
    (hnormal : 2 ^ 52 ≤ d.mantissa) (negative : Bool) :
    (d.float hd negative).toBits.toNat =
      negative.toNat * 2 ^ 63 + (d.exponent + 1075).toNat * 2 ^ 52 + (d.mantissa - 2 ^ 52) := by
  have hlt := hd.lt
  have hleast := hd.least
  have hgreatest := hd.greatest
  have hsign : (signOf negative).toBitVec.toNat = negative.toNat := by cases negative <;> rfl
  show (UnpackedFloat.pack Format.binary64 (d.unpacked hd negative)).toNat = _
  rw [hd.pack_normal hnormal, toNat_packComponents, toNat_ofNat_of_lt (by omega),
    BitVec.toNat_ofNat, hsign]
  omega

theorem toNat_toBits_float_subnormal {d : Dyadic} (hd : d.Canonical)
    (hsubnormal : d.mantissa < 2 ^ 52) (negative : Bool) :
    (d.float hd negative).toBits.toNat = negative.toNat * 2 ^ 63 + d.mantissa := by
  have hsign : (signOf negative).toBitVec.toNat = negative.toNat := by cases negative <;> rfl
  show (UnpackedFloat.pack Format.binary64 (d.unpacked hd negative)).toNat = _
  rw [hd.pack_subnormal hsubnormal, toNat_packComponents, toNat_ofNat_of_lt hsubnormal, hsign]
  simp

/-- The fields that are read off the bits give the bits back. -/
theorem bits_eq (n : Nat) (hn : n < 2 ^ 64) :
    (n / 2 ^ 63 == 1).toNat * 2 ^ 63 + n / 2 ^ 52 % 2 ^ 11 * 2 ^ 52 + n % 2 ^ 52 = n := by
  have hsign : (n / 2 ^ 63 == 1).toNat = n / 2 ^ 63 := by
    have hlt : n / 2 ^ 63 < 2 := by omega
    rcases Nat.lt_succ_iff_lt_or_eq.mp hlt with h | h
    · obtain h0 : n / 2 ^ 63 = 0 := by omega
      rw [h0]
      rfl
    · rw [h]
      rfl
  rw [hsign]
  omega

/-- A float that is read as finite is the one with the sign and magnitude that were
read. -/
theorem eq_float_of_finite {x : Float} {negative : Bool} {d : Dyadic}
    (h : FloatValue.of x = .finite negative d) : ∃ hd, x = d.float hd negative := by
  have hbits := bits_eq x.toBits.toNat x.toBits.toNat_lt
  have hstored : x.toBits.toNat % 2 ^ 52 < 2 ^ 52 := Nat.mod_lt _ (by decide)
  have hbiased : x.toBits.toNat / 2 ^ 52 % 2 ^ 11 < 2 ^ 11 := Nat.mod_lt _ (by decide)
  have hmantissa : normalMantissa = 2 ^ 52 := rfl
  unfold FloatValue.of at h
  simp only [Nat.pow_eq, hmantissa, leastExponent] at h
  split at h
  · split at h <;> cases h
  next hgreatest =>
  split at h
  next hleast =>
    split at h
    · cases h
    next hpos =>
    cases h
    refine ⟨.subnormal (Nat.pos_of_ne_zero hpos) hstored, eq_of_toBits_eq (UInt64.toNat_inj.mp ?_)⟩
    rw [toNat_toBits_float_subnormal _ hstored, ← Nat.add_zero (_ * 2 ^ 63)]
    rw [hleast, Nat.zero_mul] at hbits
    exact hbits.symm
  next hleast =>
    cases h
    generalize hfield : x.toBits.toNat / 2 ^ 52 % 2 ^ 11 = field at *
    have hnormal : 2 ^ 52 ≤ 2 ^ 52 + x.toBits.toNat % 2 ^ 52 := Nat.le_add_right _ _
    have hexponent : (-1074 + ((field - 1 : Nat) : Int) + 1075).toNat = field := by omega
    refine ⟨.normalized hnormal (by omega) (by omega) (by omega),
      eq_of_toBits_eq (UInt64.toNat_inj.mp ?_)⟩
    rw [toNat_toBits_float_normal _ hnormal]
    simp only [hexponent, Nat.add_sub_cancel_left]
    exact hbits.symm

/-- A float that is read as a zero is that zero. -/
theorem eq_zero_of_zero {x : Float} {negative : Bool} (h : FloatValue.of x = .zero negative) :
    x = if negative then -0 else 0 := by
  have hbits := bits_eq x.toBits.toNat x.toBits.toNat_lt
  have hmantissa : normalMantissa = 2 ^ 52 := rfl
  unfold FloatValue.of at h
  simp only [Nat.pow_eq, hmantissa] at h
  split at h
  · split at h <;> cases h
  split at h
  next hleast =>
    split at h
    next hzero =>
      rw [hleast, hzero] at hbits
      refine eq_of_toBits_eq (UInt64.toNat_inj.mp ?_)
      rw [← hbits]
      cases h
      cases (x.toBits.toNat / 2 ^ 63 == 1)
      · decide
      · decide
    · cases h
  · cases h

/-- A finite float is read as a zero or as a finite number. -/
theorem of_eq_of_isFinite {x : Float} (hx : x.isFinite = true) :
    (∃ negative, FloatValue.of x = .zero negative) ∨
      ∃ negative d, FloatValue.of x = .finite negative d := by
  have hexponent : x.toBits.toNat / 2 ^ 52 % 2 ^ 11 ≠ 2047 := by
    intro h
    have hones : @unpackExponent Format.binary64 x.toBits.toBitVec = -1#11 := by
      refine BitVec.eq_of_toNat_eq ?_
      rw [toNat_unpackExponent]
      exact h
    have hunpack : (UnpackedFloat.unpack Format.binary64 x.toBits.toBitVec).isFinite = true := hx
    unfold UnpackedFloat.unpack at hunpack
    dsimp only at hunpack
    rw [hones, if_pos rfl] at hunpack
    split at hunpack <;> cases hunpack
  have hmantissa : normalMantissa = 2 ^ 52 := rfl
  unfold FloatValue.of
  simp only [Nat.pow_eq, hmantissa, if_neg hexponent]
  split
  · split
    · exact .inl ⟨_, rfl⟩
    · exact .inr ⟨_, _, rfl⟩
  · exact .inr ⟨_, _, rfl⟩

theorem isFinite_neg {x : Float} (hx : x.isFinite = true) : (-x).isFinite = true := by
  rcases of_eq_of_isFinite hx with ⟨negative, h⟩ | ⟨negative, d, h⟩
  · obtain rfl := eq_zero_of_zero h
    cases negative <;> decide
  · obtain ⟨hd, rfl⟩ := eq_float_of_finite h
    rw [neg_float]
    exact isFinite_float hd _

end MarketSignals.Decimal
