import PdfGraphics.Proofs.Scalar.Arithmetic
/-!
The rational numbers that binary64 numbers stand for.

A decimal number becomes the nearest binary64 number. Integers below 2^53 and their halves, quarters
and so on are binary64 numbers themselves, so computing with them is exact.
-/

namespace PdfGraphics.Binary64

open Float.Model (Format UnpackedFloat)
open Float.Model.UnpackedFloat (Sign)
open Rounding (IsRounding Signed Holds)

variable {x y : Float} {s s₁ s₂ : Sign} {q q₁ q₂ : ℚ} {m n : ℕ} {e : ℤ}

-- The number that a float stands for; infinities and what is no number stand for none.
def value? (x : Float) : Option ℚ :=
  Rounding.value? x.toModel.unpack

-- A magnitude with a sign, rounded to the nearest binary64 number.
def Rounds (s : Sign) (q : ℚ) (x : Float) : Prop :=
  IsRounding .binary64 s q x.toModel.unpack

def IsSigned (x : Float) (s : Sign) (q : ℚ) : Prop :=
  Signed x.toModel.unpack s q

theorem minExponent_le : Format.binary64.minExponent ≤ Rounding.maxExponent .binary64 := by
  decide

theorem holds (s : Sign) (hm : m < 2 ^ 53) (he : -1074 ≤ e) (he' : e ≤ 971) :
    Holds .binary64 (side s * (m * 2 ^ e)) :=
  Rounding.holds_side_of_lt minExponent_le s hm he he'

theorem holds_natCast (s : Sign) (hm : m < 2 ^ 53) : Holds .binary64 (side s * m) := by
  have h := holds (e := 0) s hm (by norm_num) (by norm_num)
  rwa [zpow_zero, mul_one] at h

theorem Rounds.isSigned (h : Rounds s q x) (hq : Holds .binary64 (side s * q)) : IsSigned x s q :=
  Rounding.signed_of_isRounding minExponent_le h hq

theorem IsSigned.value (h : IsSigned x s q) : value? x = some (side s * q) := by
  unfold value?
  unfold IsSigned at h
  generalize x.toModel.unpack = u at h
  cases h with
  | zero   => rw [mul_zero]; rfl
  | finite => rfl

theorem rounds_mul (h₁ : IsSigned x s₁ q₁) (h₂ : IsSigned y s₂ q₂) :
    Rounds (s₁ * s₂) (q₁ * q₂) (x * y) :=
  Rounding.isRounding_mul minExponent_le h₁ h₂

theorem rounds_div (h₁ : IsSigned x s₁ q₁) (h₂ : IsSigned y s₂ q₂) (hq : q₂ ≠ 0) :
    Rounds (s₁ / s₂) (q₁ / q₂) (x / y) :=
  Rounding.isRounding_div minExponent_le h₁ h₂ hq

theorem Rounds.neg (h : Rounds s q x) : Rounds (-s) q (-x) :=
  IsRounding.neg minExponent_le h

theorem isSigned_toFloat (hm : m < 2 ^ 53) : IsSigned m.toUInt64.toFloat .positive m := by
  have hnat : m.toUInt64.toNat = m := Nat.mod_eq_of_lt (hm.trans (by norm_num))
  have hr : Rounds .positive m m.toUInt64.toFloat := by
    have h : Rounds .positive m.toUInt64.toNat m.toUInt64.toFloat :=
      Rounding.isRounding_ofNat minExponent_le _
    rwa [hnat] at h
  exact hr.isSigned (holds_natCast _ hm)

-- A float with a natural value is one that stands for it.
theorem isSigned_of_toNat? (h : toNat? x = some n) (hn : n ≠ 0) : IsSigned x .positive n := by
  unfold IsSigned
  unfold toNat? at h
  split at h
  case h_1 => exact absurd (Option.some.inj h).symm hn
  case h_2 m e hm hu =>
    rw [hu, ← Option.some.inj h, Nat.shiftLeft_eq, Nat.cast_mul, Nat.cast_pow, Nat.cast_ofNat,
      ← zpow_natCast]
    exact .finite ..
  case h_3 m e hm hu =>
    split at h
    case isTrue hd =>
      rw [Nat.one_shiftLeft] at hd
      have hq : ((m >>> (e + 1) : ℕ) : ℚ) = m * 2 ^ Int.negSucc e := by
        have hm : ((m / 2 ^ (e + 1) : ℕ) : ℚ) * 2 ^ (e + 1) = m := by
          exact_mod_cast Nat.div_mul_cancel (Nat.dvd_of_mod_eq_zero hd)
        rw [Nat.shiftRight_eq_div_pow, zpow_negSucc, ← div_eq_mul_inv, eq_div_iff (by positivity),
          hm]
      rw [hu, ← Option.some.inj h, hq]
      exact .finite ..
    case isFalse => cases h
  case h_4 => cases h

theorem toNat?_powers : ∀ e : Fin 23,
    toNat? (Float.exactlyRepresentablePowersOfTen[e]) = some (10 ^ e.val) := by
  decide +kernel

-- Small numbers are computed from floats, others from their digits. Both are rounded once.
theorem rounds_ofScientific (m : ℕ) (isNegative : Bool) (e : ℕ) :
    Rounds .positive (m * 10 ^ (if isNegative then -e else e : ℤ))
      (Float.ofScientific m isNegative e) := by
  by_cases h : m < 2 ^ 53 ∧ e ≤ 22
  case pos =>
    rw [Float.ofScientific, dif_pos h]
    have hm := isSigned_toFloat h.left
    have he := isSigned_of_toNat? (toNat?_powers ⟨e, Nat.lt_succ_of_le h.right⟩) (by positivity)
    have hcast : ((10 ^ e : ℕ) : ℚ) = 10 ^ (e : ℤ) := by
      rw [Nat.cast_pow, Nat.cast_ofNat, zpow_natCast]
    rw [hcast] at he
    cases isNegative with
    | false => exact rounds_mul hm he
    | true  =>
      have hdiv := rounds_div hm he (by positivity)
      rw [div_eq_mul_inv, ← zpow_neg] at hdiv
      exact hdiv
  case neg =>
    rw [Float.ofScientific, dif_neg h]
    cases isNegative with
    | false => exact Rounding.isRounding_ofScientific minExponent_le (by decide) m e
    | true  =>
      have hneg : Int.negOfNat e = -(e : ℤ) := Int.negOfNat_eq
      have hs := Rounding.isRounding_ofScientific minExponent_le (by decide) m (Int.negOfNat e)
      rw [hneg] at hs
      exact hneg ▸ hs

theorem rounds_decimal (m : ℕ) (e : ℤ) :
    Rounds .positive (m * 10 ^ e) (Float.ofScientific m (e < 0) e.natAbs) := by
  have he : (if decide (e < 0) then -(e.natAbs : ℤ) else e.natAbs) = e := by
    simp only [decide_eq_true_eq]
    split <;> omega
  have h := rounds_ofScientific m (e < 0) e.natAbs
  rwa [he] at h

theorem rounds_ofNat (n : ℕ) : Rounds .positive n (Float.ofNat n) := by
  have h : Rounds .positive (n * 10 ^ ((0 : ℕ) : ℤ)) (Float.ofNat n) :=
    rounds_ofScientific n false 0
  rwa [Nat.cast_zero, zpow_zero, mul_one] at h

def signOf : ℤ → Sign
  | .ofNat _   => .positive
  | .negSucc _ => .negative

theorem side_signOf (i : ℤ) : (side (signOf i) : ℚ) * i.natAbs = i := by
  cases i with
  | ofNat n   => simp [signOf, side]
  | negSucc n =>
    rw [Int.natAbs_negSucc, Int.cast_negSucc]
    exact neg_one_mul _

-- An integer that the mantissa has room for is converted without a change.
theorem isSigned_ofInt {i : ℤ} (hi : i.natAbs < 2 ^ 53) :
    IsSigned (Float.ofInt i) (signOf i) i.natAbs := by
  refine Rounds.isSigned ?_ (holds_natCast _ hi)
  cases i with
  | ofNat n   => exact rounds_ofNat n
  | negSucc n => exact (rounds_ofNat (n + 1)).neg

theorem value?_ofInt {i : ℤ} (hi : i.natAbs < 2 ^ 53) : value? (Float.ofInt i) = some (i : ℚ) := by
  rw [(isSigned_ofInt hi).value, side_signOf]

-- A count of 65536ths that the mantissa has room for is divided without rounding.
theorem value?_div_65536 {i : ℤ} (hi : i.natAbs < 2 ^ 53) :
    value? (Float.ofInt i / 65536) = some (i / 65536 : ℚ) := by
  have hden : IsSigned 65536 .positive (65536 : ℕ) :=
    (rounds_ofNat 65536).isSigned (holds_natCast _ (by norm_num))
  have hr := rounds_div (isSigned_ofInt hi) hden (by norm_num)
  have hq : ((side (signOf i / .positive) : ℤ) : ℚ) * (i.natAbs / (65536 : ℕ)) = i / 65536 := by
    have hs : signOf i / .positive = signOf i := by cases signOf i <;> rfl
    rw [hs, ← mul_div_assoc, side_signOf]
    norm_num
  have hh : Holds .binary64 (i / 65536 : ℚ) := by
    have h := holds (e := -16) (signOf i) hi (by norm_num) (by norm_num)
    rw [← mul_assoc, side_signOf] at h
    have he : (i : ℚ) / 65536 = i * 2 ^ (-16 : ℤ) := by norm_num [zpow_neg, div_eq_mul_inv]
    rwa [he]
  rw [(hr.isSigned (hq ▸ hh)).value, hq]

end PdfGraphics.Binary64
