import PdfGraphics.Proofs.Scalar.Arithmetic
/-!
The rational numbers that binary32 numbers stand for.

Integers below 2^24 are binary32 numbers themselves. Truncating a number leaves the integer next to
it on the side of zero, as far as the 32-bit range goes; a number with a fraction is well inside of
that range.
-/

namespace PdfGraphics.Binary32

open Float.Model (Format UnpackedFloat)
open Float.Model.UnpackedFloat (Sign roundToInt)
open Rounding (IsRounding Holds)

variable {x : Float32} {q : ℚ} {s : Sign} {n : ℕ} {i : ℤ}

-- The number that a float stands for; infinities and what is no number stand for none.
def value? (x : Float32) : Option ℚ :=
  Rounding.value? x.toModel.unpack

theorem minExponent_le : Format.binary32.minExponent ≤ Rounding.maxExponent .binary32 := by
  decide

theorem holds_natCast (s : Sign) (hn : n < 2 ^ 24) : Holds .binary32 (side s * n) := by
  have h : Holds .binary32 (side s * (n * 2 ^ (0 : ℤ))) :=
    Rounding.holds_side_of_lt minExponent_le s hn (by decide) (by decide)
  rwa [zpow_zero, mul_one] at h

theorem isRounding_ofNat (hn : n < 2 ^ 24) :
    IsRounding .binary32 .positive n (ofNat n).toModel.unpack := by
  have hlt : n < UInt64.size := hn.trans (by norm_num)
  have hnat : n.toUInt64.toNat = n := Nat.mod_eq_of_lt hlt
  have h : IsRounding .binary32 .positive n.toUInt64.toNat n.toUInt64.toFloat32.toModel.unpack :=
    Rounding.isRounding_ofNat minExponent_le _
  rwa [hnat, ← show ofNat n = n.toUInt64.toFloat32 from if_pos hlt] at h

theorem value?_ofInt (hi : i.natAbs < 2 ^ 24) : value? (ofInt i) = some (i : ℚ) := by
  cases i with
  | ofNat n   =>
    have h := (isRounding_ofNat hi).nearest.value minExponent_le (holds_natCast .positive hi)
    exact h.trans (by simp [side])
  | negSucc n =>
    have h := (isRounding_ofNat hi).neg minExponent_le
    have h := h.nearest.value minExponent_le (holds_natCast .negative hi)
    exact h.trans (by simp [side])

theorem value?_neg (h : value? x = some q) : value? (-x) = some (-q) := by
  have hn : x.toModel.unpack ≠ .notANumber := by
    intro hn
    rw [value?, hn] at h
    cases h
  have hu : (-x).toModel.unpack = x.toModel.unpack.neg := Rounding.unpack_pack_neg minExponent_le hn
  rw [value?, hu, Rounding.value?_neg, ← value?, h, Option.map_some]

theorem lt_zero_iff (h : value? x = some q) : x < 0 ↔ q < 0 := by
  have h₀ : (0 : Float32).toModel.unpack = .zero .positive := rfl
  rw [lt_iff, h₀]
  rw [value?] at h
  generalize x.toModel.unpack = u at h
  cases u with
  | notANumber | infinity => cases h
  | zero                  =>
    cases h
    exact iff_of_false (by rintro ⟨⟩) (lt_irrefl 0)
  | finite s m e hm       =>
    have hpos : (0 : ℚ) < m * 2 ^ e := by positivity
    cases h
    cases s with
    | negative => exact iff_of_true rfl (by simpa [side] using hpos)
    | positive => exact iff_of_false (by rintro ⟨⟩) (by simpa [side] using hpos.le)

theorem roundToInt_eq (s : Sign) (m : ℕ) (e : ℤ) :
    roundToInt s m e = s.apply ⌊(m * 2 ^ e : ℚ)⌋₊ := by
  refine congrArg (fun n : ℕ => s.apply n) ?_
  rw [Rounding.mantissa_shiftRight]
  show m <<< (e - 0).toNat / 2 ^ (0 - (e - (e - 0).toNat)).toNat = _
  rcases le_or_gt 0 e with he | he
  case inl =>
    lift e to ℕ using he
    have hq : (m * 2 ^ (e : ℤ) : ℚ) = (m * 2 ^ e : ℕ) := by
      rw [zpow_natCast, Nat.cast_mul, Nat.cast_pow, Nat.cast_ofNat]
    rw [hq, Nat.floor_natCast, Nat.shiftLeft_eq, sub_zero, Int.toNat_natCast, sub_self, sub_zero,
      Int.toNat_zero, pow_zero, Nat.div_one]
  case inr =>
    obtain ⟨k, rfl⟩ : ∃ k : ℕ, e = -k := ⟨e.natAbs, by omega⟩
    have hk : (-k - 0 : ℤ).toNat = 0 := by omega
    have hq : (m * 2 ^ (-k : ℤ) : ℚ) = m / (2 ^ k : ℕ) := by
      rw [zpow_neg, zpow_natCast, Nat.cast_pow, Nat.cast_ofNat, div_eq_mul_inv]
    rw [hq, Nat.floor_div_eq_div, hk, Nat.shiftLeft_zero]
    congr 2
    omega

-- What is left of a number without its fraction.
def towardZero (q : ℚ) : ℤ :=
  if q < 0 then ⌈q⌉ else ⌊q⌋

theorem toNat_toUInt64 (h : value? x = some q) (hq : 0 ≤ q) :
    x.toUInt64.toNat = min ⌊q⌋₊ (2 ^ 64 - 1) := by
  have hu : x.toUInt64 = x.toModel.unpack.toUInt64 := rfl
  have hclamp (n : ℕ) : (UInt64.ofNatClamp n).toNat = min n (2 ^ 64 - 1) := by
    rw [UInt64.ofNatClamp]
    split
    case isTrue hn  => exact (min_eq_left (Nat.le_sub_one_of_lt hn)).symm
    case isFalse hn => exact (min_eq_right (Nat.sub_le_of_le_add (by omega))).symm
  rw [hu, UnpackedFloat.toUInt64, hclamp]
  rw [value?] at h
  generalize x.toModel.unpack = u at h
  congr 1
  cases u with
  | notANumber | infinity => cases h
  | zero                  =>
    cases h
    rfl
  | finite s m e hm       =>
    have hpos : (0 : ℚ) < m * 2 ^ e := by positivity
    cases h
    cases s with
    | negative => exact absurd hq (by simpa [side] using hpos)
    | positive => simp [UnpackedFloat.toInt, roundToInt_eq, Sign.apply, side]

theorem truncate_eq (h : value? x = some q) :
    truncate x = max (-2147483648) (min 2147483647 (towardZero q)) := by
  by_cases hq : q < 0
  case pos =>
    have hfloor : (⌊-q⌋₊ : ℤ) = -⌈q⌉ := by
      rw [Int.natCast_floor_eq_floor (by linarith), Int.floor_neg]
    rw [truncate, if_pos ((lt_zero_iff h).mpr hq), toNat_toUInt64 (value?_neg h) (by linarith),
      towardZero, if_pos hq]
    omega
  case neg =>
    have hfloor : (⌊q⌋₊ : ℤ) = ⌊q⌋ := Int.natCast_floor_eq_floor (not_lt.mp hq)
    rw [truncate, if_neg ((lt_zero_iff h).not.mpr hq), toNat_toUInt64 h (not_lt.mp hq), towardZero,
      if_neg hq]
    omega

theorem towardZero_intCast (i : ℤ) : towardZero i = i := by
  rw [towardZero, Int.ceil_intCast, Int.floor_intCast, ite_self]

theorem abs_towardZero_le (q : ℚ) : |(towardZero q : ℚ)| ≤ |q| := by
  unfold towardZero
  split
  case isTrue hq  =>
    have hc : (⌈q⌉ : ℚ) ≤ 0 := by exact_mod_cast Int.ceil_nonpos.mpr hq.le
    rw [abs_of_nonpos hc, abs_of_neg hq]
    exact neg_le_neg (Int.le_ceil q)
  case isFalse hq =>
    have hf : (0 : ℚ) ≤ ⌊q⌋ := by exact_mod_cast Int.floor_nonneg.mpr (not_lt.mp hq)
    rw [abs_of_nonneg hf, abs_of_nonneg (not_lt.mp hq)]
    exact Int.floor_le q

theorem truncate_ofInt (hi : i.natAbs < 2 ^ 24) : truncate (ofInt i) = i := by
  rw [truncate_eq (value?_ofInt hi), towardZero_intCast]
  omega

-- From 2^23 on there is no room for a fraction in the mantissa.
theorem abs_lt_of_fract (h : value? x = some q) (hq : Int.fract q ≠ 0) : |q| < 2 ^ 23 := by
  rw [value?] at h
  cases hu : x.toModel.unpack with
  | notANumber | infinity =>
    rw [hu] at h
    cases h
  | zero =>
    rw [hu] at h
    cases h
    exact absurd Int.fract_zero hq
  | finite s m e hm =>
    have ⟨hc, _⟩ := Rounding.canonical_of_unpack minExponent_le hu
    rw [hu] at h
    cases h
    rw [Rounding.abs_side_mul, abs_of_nonneg (by positivity)]
    have he : e < 0 := by
      by_contra he
      lift e to ℕ using not_lt.mp he
      refine hq (Int.fract_eq_zero_iff.mpr ⟨side s * (m * 2 ^ e), ?_⟩)
      push_cast
      rw [zpow_natCast]
    have hm : (m : ℚ) < 2 ^ 24 := by exact_mod_cast hc.lt
    calc
      (m : ℚ) * 2 ^ e ≤ m * 2 ^ (-1 : ℤ) :=
        mul_le_mul_of_nonneg_left (zpow_le_zpow_right₀ one_le_two (by omega)) m.cast_nonneg
      _ < 2 ^ 24 * 2 ^ (-1 : ℤ) := mul_lt_mul_of_pos_right hm (by positivity)
      _ = 2 ^ 23 := by norm_num

theorem truncate_of_fract (h : value? x = some q) (hq : Int.fract q ≠ 0) :
    truncate x = towardZero q := by
  have hlt : |(towardZero q : ℚ)| < 2 ^ 23 := (abs_towardZero_le q).trans_lt (abs_lt_of_fract h hq)
  have ⟨hlo, hhi⟩ := abs_lt.mp (show |towardZero q| < 2 ^ 23 by exact_mod_cast hlt)
  rw [truncate_eq h]
  omega

end PdfGraphics.Binary32
