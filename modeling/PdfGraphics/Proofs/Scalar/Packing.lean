import PdfGraphics.Proofs.Scalar.Rounding
/-!
The numbers that a floating-point format holds.

Each number of a format has one form: its mantissa takes up all bits, unless the exponent is the
least one. What has this form is packed and unpacked without a change, up to the greatest exponent;
beyond it infinity is packed. Nothing else is ever unpacked.
-/

namespace PdfGraphics.Rounding

open Float.Model (Format UnpackedFloat)
open Float.Model.UnpackedFloat

variable {spec : Format} {s : Sign} {m : ℕ} {e : ℤ}

-- The exponent of the greatest numbers.
def maxExponent (spec : Format) : ℤ :=
  2 ^ (spec.exponentBits - 1) - spec.mantissaBits

structure Canonical (spec : Format) (m : ℕ) (e : ℤ) : Prop where
  pos    : 0 < m
  lt     : m < 2 ^ spec.mantissaBits
  lower  : spec.minExponent ≤ e
  normal : e = spec.minExponent ∨ 2 ^ (spec.mantissaBits - 1) ≤ m

theorem toNat_append_mantissa (mantissa : BitVec spec.mantissaBitsWithoutImplicit) :
    (1#1 ++ mantissa).toNat = 2 ^ spec.mantissaBitsWithoutImplicit + mantissa.toNat := by
  rw [BitVec.toNat_append, ← Nat.shiftLeft_add_eq_or_of_lt mantissa.isLt, Nat.shiftLeft_eq]
  simp

-- The number with given fields: for the greatest exponent no number, for the least one a number
-- that has no implicit bit.
def ofFields (spec : Format) (s : Sign) (exponent mantissa : ℕ) : UnpackedFloat :=
  if exponent = 2 ^ spec.exponentBits - 1 then
    if mantissa = 0 then .infinity s else .notANumber
  else if exponent = 0 then
    finiteOrZero s mantissa spec.minExponent
  else
    finiteOrZero s (2 ^ spec.mantissaBitsWithoutImplicit + mantissa)
      (spec.minExponent + exponent - 1)

theorem finite_eq (hm : 0 < m) : UnpackedFloat.finite s m e hm = finiteOrZero s m e := by
  rw [finiteOrZero, dif_neg hm.ne']

theorem minExponent_eq (spec : Format) : spec.minExponent =
    1 - (spec.exponentBias + spec.mantissaBitsWithoutImplicit) := by
  have hb : ((2 ^ (spec.exponentBits - 1) - 1 : ℕ) : ℤ) = 2 ^ (spec.exponentBits - 1) - 1 := by
    rw [Nat.cast_sub Nat.one_le_two_pow]
    simp
  rw [Format.minExponent, Format.exponentBias, hb, Format.mantissaBits]
  omega

theorem unpack_eq (b : BitVec spec.numBits) :
    unpack spec b = ofFields spec (.ofBitVec (unpackSign b)) (unpackExponent b).toNat
      (unpackMantissa b).toNat := by
  have hone : unpackExponent b = -1#_ ↔ (unpackExponent b).toNat = 2 ^ spec.exponentBits - 1 := by
    rw [← BitVec.toNat_inj, BitVec.neg_one_eq_allOnes, BitVec.toNat_allOnes]
  have hzero : unpackExponent b = 0#_ ↔ (unpackExponent b).toNat = 0 := by
    rw [← BitVec.toNat_inj, BitVec.toNat_zero]
  have hmant : unpackMantissa b = 0#_ ↔ (unpackMantissa b).toNat = 0 := by
    rw [← BitVec.toNat_inj, BitVec.toNat_zero]
  have hmin := minExponent_eq spec
  simp only [unpack, ofFields, ← hone, ← hzero, finite_eq, toNat_append_mantissa]
  split
  case isTrue => simp only [hmant]
  case isFalse =>
    split
    case isTrue hz =>
      split
      case isTrue hm => rw [hmant.mp hm]; rfl
      case isFalse hm =>
        congr 1
        rw [hz, BitVec.toNat_zero]
        omega
    case isFalse =>
      congr 1
      omega

theorem unpack_packComponents (exponent : BitVec spec.exponentBits)
    (mantissa : BitVec spec.mantissaBitsWithoutImplicit) :
    unpack spec (packComponents spec s exponent mantissa) =
      ofFields spec s exponent.toNat mantissa.toNat := by
  rw [unpack_eq, unpackSign_packComponents, Sign.ofBitVec_toBitVec, unpackExponent_packComponents,
    unpackMantissa_packComponents]

theorem two_pow_exponentBits (spec : Format) :
    (2 ^ spec.exponentBits : ℕ) = maxExponent spec - spec.minExponent + 3 := by
  have he : spec.exponentBits = spec.exponentBits - 1 + 1 := (Nat.sub_add_cancel spec.he).symm
  rw [maxExponent, Format.minExponent]
  conv => lhs; rw [he, pow_succ]
  push_cast
  omega

theorem canonical_of_unpack {b : BitVec spec.numBits} {hm : 0 < m}
    (hs : spec.minExponent ≤ maxExponent spec) (h : unpack spec b = .finite s m e hm) :
    Canonical spec m e ∧ e ≤ maxExponent spec := by
  have hexp := (unpackExponent b).isLt
  have hmant := (unpackMantissa b).isLt
  have htwo := two_pow_exponentBits spec
  have hp : 2 ^ spec.mantissaBits = 2 ^ spec.mantissaBitsWithoutImplicit * 2 := by
    rw [Format.mantissaBits, add_comm, pow_succ]
  have hq : spec.mantissaBits - 1 = spec.mantissaBitsWithoutImplicit := by
    rw [Format.mantissaBits, Nat.add_sub_cancel_left]
  rw [unpack_eq, ofFields] at h
  split at h
  case isTrue  => split at h <;> cases h
  case isFalse =>
    split at h
    all_goals
      unfold finiteOrZero at h
      split at h <;> cases h
    case isTrue.isFalse  => exact ⟨⟨hm, by omega, le_rfl, .inl rfl⟩, hs⟩
    case isFalse.isFalse => exact ⟨⟨hm, by omega, by omega, .inr (by rw [hq]; omega)⟩, by omega⟩

theorem unpack_pack_zero : unpack spec (pack spec (.zero s)) = .zero s :=
  unpack_packedZero

theorem unpack_pack_infinity : unpack spec (pack spec (.infinity s)) = .infinity s := by
  rw [pack, packedInfinity, unpack_packComponents, ofFields]
  simp [BitVec.neg_one_eq_allOnes]

theorem biasedExponent_eq (h : Canonical spec m e) :
    ((e + spec.exponentBias + spec.mantissaBitsWithoutImplicit).toNat : ℤ) =
      e - spec.minExponent + 1 := by
  have hmin := minExponent_eq spec
  have := h.lower
  omega

theorem unpack_pack_overflow (h : Canonical spec m e) (he : maxExponent spec < e) :
    unpack spec (pack spec (.finite s m e h.pos)) = .infinity s := by
  have hb := biasedExponent_eq h
  have htwo := two_pow_exponentBits spec
  rw [pack, if_pos (by omega)]
  exact unpack_pack_infinity

theorem unpack_pack_finite (h : Canonical spec m e) (he : e ≤ maxExponent spec) :
    unpack spec (pack spec (.finite s m e h.pos)) = .finite s m e h.pos := by
  have hb := biasedExponent_eq h
  have htwo := two_pow_exponentBits spec
  have hlower := h.lower
  have hone := Nat.one_lt_two_pow spec.he.ne'
  have hp : spec.mantissaBits = spec.mantissaBitsWithoutImplicit + 1 := by
    rw [Format.mantissaBits, add_comm]
  rw [pack, if_neg (by omega)]
  split
  case isTrue hn =>
    have hlog : m.log2 = spec.mantissaBitsWithoutImplicit := by omega
    have hle := Nat.log2_self_le h.pos.ne'
    have hlt : m < 2 ^ (m.log2 + 1) := Nat.lt_log2_self
    rw [hlog] at hle hlt
    have hmod : m % 2 ^ spec.mantissaBitsWithoutImplicit =
        m - 2 ^ spec.mantissaBitsWithoutImplicit := by
      rw [Nat.mod_eq_sub_mod hle, Nat.mod_eq_of_lt]
      omega
    rw [unpack_packComponents, BitVec.toNat_ofNat, BitVec.toNat_ofNat, Nat.mod_eq_of_lt (by omega),
      hmod, ofFields, if_neg (by omega), if_neg (by omega), Nat.add_sub_cancel' hle, finite_eq]
    congr 1
    omega
  case isFalse hn =>
    have hlt : m < 2 ^ spec.mantissaBitsWithoutImplicit := by
      have := (Nat.log2_lt h.pos.ne').mpr h.lt
      exact (Nat.log2_lt h.pos.ne').mp (by omega)
    have hmin : e = spec.minExponent := by
      refine h.normal.resolve_right fun hle => ?_
      rw [hp, Nat.add_sub_cancel] at hle
      omega
    rw [unpack_packComponents, BitVec.toNat_ofNat, BitVec.toNat_ofNat, Nat.zero_mod,
      Nat.mod_eq_of_lt hlt, ofFields, if_neg (by omega), if_pos rfl, finite_eq, hmin]

end PdfGraphics.Rounding
