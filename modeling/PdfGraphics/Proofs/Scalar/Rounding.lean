import Mathlib
/-!
How magnitudes are rounded to a floating-point format.

A magnitude is cut off at the exponent that the format has for it. Two bits of what is cut off are
kept: whether it makes up a half, and whether there is more. They are enough to tell the nearest
integer, a tie going to the even one.
-/

namespace PdfGraphics.Rounding

open Float.Model (Format UnpackedFloat totalExponent)
open Float.Model.UnpackedFloat

-- The integer nearest to a number, or the even one of two.
structure IsRounded (x : ℚ) (n : ℕ) : Prop where
  near : |x - n| ≤ 1 / 2
  even : |x - n| = 1 / 2 → Even n

namespace IsRounded

variable {x : ℚ} {n k : ℕ}

theorem le_of_le (h : IsRounded x n) (hk : (k : ℚ) ≤ x) : k ≤ n := by
  by_contra hlt
  have hn : (n : ℚ) + 1 ≤ k := by exact_mod_cast Nat.lt_of_not_le hlt
  have := (abs_le.mp h.near).right
  linarith

theorem le_of_ge (h : IsRounded x n) (hk : x ≤ k) : n ≤ k := by
  by_contra hlt
  have hn : (k : ℚ) + 1 ≤ n := by exact_mod_cast Nat.lt_of_not_le hlt
  have := (abs_le.mp h.near).left
  linarith

theorem of_lt (h : |x - n| < 1 / 2) : IsRounded x n :=
  ⟨h.le, fun he => absurd he h.ne⟩

theorem eq_of_natCast (h : IsRounded k n) : n = k :=
  Nat.le_antisymm (h.le_of_ge le_rfl) (h.le_of_le le_rfl)

-- What is next to one integer is at least a half away from all others.
theorem one_le_add_dist {k : ℤ} (x : ℚ) (h : k ≠ n) : 1 ≤ |x - n| + |x - k| := by
  calc
    (1 : ℚ) ≤ |(n : ℚ) - k| := by exact_mod_cast Int.one_le_abs (sub_ne_zero.mpr h.symm)
    _ ≤ |(n : ℚ) - x| + |x - k| := abs_sub_le ..
    _ = |x - n| + |x - k| := by rw [abs_sub_comm (n : ℚ) x]

-- No integer is nearer, and an odd one is the only nearest.
theorem le_dist (h : IsRounded x n) (k : ℤ) : |x - n| ≤ |x - k| := by
  by_cases hk : k = n
  case pos => rw [hk, Int.cast_natCast]
  case neg =>
    have hd := one_le_add_dist x hk
    have hn := h.near
    linarith

theorem eq_or_even (h : IsRounded x n) {k : ℤ} (hk : |x - k| = |x - n|) : k = n ∨ Even n := by
  by_cases hn : k = n
  case pos => exact .inl hn
  case neg =>
    have hd := one_le_add_dist x hn
    rw [hk] at hd
    exact .inr (h.even (le_antisymm h.near (by linarith)))

end IsRounded

def half (bit : Bool) : ℚ :=
  if bit then 1 / 2 else 0

@[simp] theorem half_false : half false = 0 :=
  rfl

@[simp] theorem half_true : half true = 1 / 2 :=
  rfl

theorem half_nonneg (bit : Bool) : 0 ≤ half bit := by
  cases bit <;> norm_num

theorem half_le (bit : Bool) : half bit ≤ 1 / 2 := by
  cases bit <;> norm_num

theorem half_eq_zero {bit : Bool} : half bit = 0 ↔ bit = false := by
  cases bit <;> norm_num

-- The bits of an extended mantissa are those of a number. What the last bit stands for is less than
-- one half.
inductive Represents (em : ExtendedMantissa) (x : ℚ) : Prop
  | intro {rest : ℚ} (nonneg : 0 ≤ rest) (lt : rest < 1 / 2) (sticky : em.stickyBit ↔ rest ≠ 0)
    (eq : x = em.mantissa + half em.roundBit + rest)

namespace Represents

variable {em : ExtendedMantissa} {x : ℚ}

theorem shiftRightOne (h : Represents em x) : Represents em.shiftRightOne (x / 2) := by
  cases h with
  | @intro rest nonneg lt sticky eq =>
    have hm : (em.mantissa : ℚ) = 2 * (em.mantissa / 2 : ℕ) + (em.mantissa % 2 : ℕ) := by
      exact_mod_cast (Nat.div_add_mod em.mantissa 2).symm
    have hh : ((em.mantissa % 2 : ℕ) : ℚ) / 2 = half (em.mantissa % 2 != 0) := by
      rcases Nat.mod_two_eq_zero_or_one em.mantissa with h | h <;> simp [h]
    have hnonneg := half_nonneg em.roundBit
    have hle := half_le em.roundBit
    refine @Represents.intro _ _ ((half em.roundBit + rest) / 2) (by linarith) (by linarith) ?_ ?_
    case refine_1 =>
      have hzero : (half em.roundBit + rest) / 2 = 0 ↔ half em.roundBit = 0 ∧ rest = 0 := by
        rw [div_eq_zero_iff, or_iff_left two_ne_zero, add_eq_zero_iff_of_nonneg hnonneg nonneg]
      show (em.roundBit || em.stickyBit) = true ↔ _
      rw [ne_eq, hzero, half_eq_zero, Bool.or_eq_true, sticky, not_and_or,
        Bool.not_eq_false]
    case refine_2 =>
      show x / 2 = (em.mantissa / 2 : ℕ) + half (em.mantissa % 2 != 0) + _
      rw [← hh]
      linarith

theorem shiftRight (h : Represents em x) (n : ℕ) : Represents (em >>> n) (x / 2 ^ n) := by
  show Represents (n.repeat ExtendedMantissa.shiftRightOne em) _
  induction n with
  | zero      => simpa [Nat.repeat] using h
  | succ n ih =>
    rw [Nat.repeat, pow_succ, ← div_div]
    exact ih.shiftRightOne

theorem isRounded (h : Represents em x) : IsRounded x em.roundedMantissa := by
  cases h with
  | @intro rest nonneg lt sticky eq =>
    have ⟨m, roundBit, stickyBit⟩ := em
    cases roundBit <;> cases stickyBit <;> simp only [half_false, half_true] at eq
    case false.false =>
      have hrest : rest = 0 := by simpa using sticky
      refine .of_lt (show |x - m| < 1 / 2 from ?_)
      rw [eq, hrest]
      norm_num
    case false.true =>
      refine .of_lt (show |x - m| < 1 / 2 from ?_)
      rwa [eq, add_zero, add_sub_cancel_left, abs_of_nonneg nonneg]
    case true.false =>
      have hrest : rest = 0 := by simpa using sticky
      rw [hrest, add_zero] at eq
      refine ⟨?_, fun _ => ?_⟩
      all_goals rcases Nat.mod_two_eq_zero_or_one m with hm | hm
      all_goals simp only [ExtendedMantissa.roundedMantissa, ExtendedMantissa.accuracy,
        Accuracy.roundToNearestEven, hm, eq]
      case refine_1.inl => norm_num [abs_of_nonneg]
      case refine_1.inr => norm_num [abs_of_nonpos]
      case refine_2.inl => exact Nat.even_iff.mpr hm
      case refine_2.inr => exact Nat.even_iff.mpr (by omega)
    case true.true =>
      have hpos : 0 < rest := lt_of_le_of_ne nonneg (Ne.symm (by simpa using sticky))
      refine .of_lt (show |x - ((m + 1 : ℕ) : ℚ)| < 1 / 2 from ?_)
      rw [eq, abs_lt, Nat.cast_succ]
      constructor <;> linarith

end Represents

-- What part of a unit an accuracy stands for.
inductive Accurate : Accuracy → ℚ → Prop
  | exact : Accurate .exact 0
  | below {part : ℚ} (pos : 0 < part) (lt : part < 1 / 2) : Accurate (.inexact .lt) part
  | half : Accurate (.inexact .eq) (1 / 2)
  | above {part : ℚ} (gt : 1 / 2 < part) (lt : part < 1) : Accurate (.inexact .gt) part

namespace Accurate

variable {accuracy : Accuracy} {part : ℚ}

theorem nonneg_lt (h : Accurate accuracy part) : 0 ≤ part ∧ part < 1 := by
  cases h with
  | exact | half => norm_num
  | below pos lt => constructor <;> linarith
  | above gt lt  => constructor <;> linarith

theorem represents (h : Accurate accuracy part) (m : ℕ) :
    Represents (.ofMantissaAndAccuracy m accuracy) (m + part) := by
  cases h with
  | exact        =>
    exact .intro le_rfl (by norm_num) (by simp [ExtendedMantissa.ofMantissaAndAccuracy])
      (by simp [ExtendedMantissa.ofMantissaAndAccuracy])
  | below pos lt =>
    exact .intro pos.le lt (by simp [ExtendedMantissa.ofMantissaAndAccuracy, pos.ne'])
      (by simp [ExtendedMantissa.ofMantissaAndAccuracy])
  | half         =>
    exact .intro le_rfl (by norm_num) (by simp [ExtendedMantissa.ofMantissaAndAccuracy])
      (by simp [ExtendedMantissa.ofMantissaAndAccuracy])
  | above gt lt  =>
    refine @Represents.intro _ _ (part - 1 / 2) (by linarith) (by linarith) ?_ ?_
    · exact ⟨fun _ => sub_ne_zero.mpr gt.ne', fun _ => rfl⟩
    · simp [ExtendedMantissa.ofMantissaAndAccuracy]

end Accurate

theorem accurate_fraction {num den : ℕ} (h : num < den) :
    Accurate (accuracyOfFraction num den) (num / den) := by
  have hden : (0 : ℚ) < den := by exact_mod_cast Nat.zero_lt_of_lt h
  have hlt : (num : ℚ) < den := by exact_mod_cast h
  unfold accuracyOfFraction
  split
  case isTrue hz =>
    rw [hz, Nat.cast_zero, zero_div]
    exact .exact
  case isFalse hz =>
    have hnum : (0 : ℚ) < num := by exact_mod_cast Nat.pos_of_ne_zero hz
    cases hc : compare (2 * num) den with
    | lt =>
      have h2 : (2 : ℚ) * num < den := by exact_mod_cast Nat.compare_eq_lt.mp hc
      refine .below (div_pos hnum hden) ?_
      rw [div_lt_div_iff₀ hden two_pos]
      linarith
    | eq =>
      have h2 : (2 : ℚ) * num = den := by exact_mod_cast Nat.compare_eq_eq.mp hc
      rw [show (num : ℚ) / den = 1 / 2 by
        rw [div_eq_div_iff hden.ne' two_ne_zero]
        linarith]
      exact .half
    | gt =>
      have h2 : (den : ℚ) < 2 * num := by exact_mod_cast Nat.compare_eq_gt.mp hc
      refine .above ?_ ((div_lt_one hden).mpr hlt)
      rw [div_lt_div_iff₀ two_pos hden]
      linarith

-- A magnitude lies in the binade that its exponent is for, or below it where the format has no
-- smaller exponent. `n` is the integer that it is rounded to, counted in units of that exponent.
structure Rounds (spec : Format) (q : ℚ) (n : ℕ) (e : ℤ) : Prop where
  nonneg  : 0 ≤ q
  rounded : IsRounded (q / 2 ^ e) n
  lower   : spec.minExponent ≤ e
  upper   : q < 2 ^ (e + spec.mantissaBits)
  normal  : e = spec.minExponent ∨ (2 : ℚ) ^ (e + spec.mantissaBits - 1) ≤ q

def finiteOrZero (s : Sign) (m : ℕ) (e : ℤ) : UnpackedFloat :=
  if h : m = 0 then .zero s else .finite s m e (Nat.pos_of_ne_zero h)

-- `n` units of an exponent, in the form that the format has for them.
def scaled (spec : Format) (s : Sign) (n : ℕ) (e : ℤ) : UnpackedFloat :=
  if n < 2 ^ spec.mantissaBits then
    finiteOrZero s n e
  else
    finiteOrZero s (2 ^ (spec.mantissaBits - 1)) (e + 1)

theorem scaled_zero (spec : Format) (s : Sign) (e : ℤ) : scaled spec s 0 e = .zero s := by
  rw [scaled, if_pos (Nat.two_pow_pos _), finiteOrZero, dif_pos rfl]

section Shift

variable {spec : Format} {m : ℕ} {e t : ℤ} {accuracy : Accuracy} {part : ℚ}

theorem one_lt_mantissaBits (spec : Format) : 1 < spec.mantissaBits := by
  have := spec.hm
  rw [Format.mantissaBits]
  omega

theorem mantissa_shiftRight (em : ExtendedMantissa) (n : ℕ) :
    (em >>> n).mantissa = em.mantissa / 2 ^ n := by
  show (n.repeat ExtendedMantissa.shiftRightOne em).mantissa = _
  induction n with
  | zero      => rw [Nat.repeat, pow_zero, Nat.div_one]
  | succ n ih =>
    rw [Nat.repeat, ExtendedMantissa.shiftRightOne, ih, Nat.div_div_eq_div_mul, pow_succ]

theorem exists_shift (ha : Accurate accuracy part) (h : e ≤ t) :
    ∃ em, shiftToExponent m e accuracy t = (em, t) ∧
      Represents em ((m + part) * 2 ^ e / 2 ^ t) := by
  have hn : ((t - e).toNat : ℤ) = t - e := Int.toNat_of_nonneg (by omega)
  have hq : ((m : ℚ) + part) / 2 ^ (t - e).toNat = (m + part) * 2 ^ e / 2 ^ t := by
    rw [← zpow_natCast, hn, zpow_sub₀ two_ne_zero, div_div_eq_mul_div]
  refine ⟨_, Prod.ext rfl ?_, hq ▸ (ha.represents m).shiftRight (t - e).toNat⟩
  show e + ((t - e).toNat : ℤ) = t
  omega

-- The magnitude `m * 2 ^ e`, and a part of a unit more.
theorem rounds_of_isRounded {n : ℕ} (hpart : 0 ≤ part ∧ part < 1)
    (ht : t = spec.targetExponent (totalExponent m e)) (h : e ≤ t)
    (hn : IsRounded ((m + part) * 2 ^ e / 2 ^ t) n) : Rounds spec ((m + part) * 2 ^ e) n t := by
  have hmax : t = max (m.log2 + 1 + e - spec.mantissaBits) spec.minExponent := ht
  have hp := one_lt_mantissaBits spec
  have hpos : (0 : ℚ) < 2 ^ e := by positivity
  refine ⟨mul_nonneg (add_nonneg m.cast_nonneg hpart.left) hpos.le, hn, by omega, ?_, ?_⟩
  case refine_1 =>
    have hm : (m : ℚ) + 1 ≤ 2 ^ (m.log2 + 1) := by exact_mod_cast Nat.lt_log2_self
    calc
      ((m : ℚ) + part) * 2 ^ e < 2 ^ (m.log2 + 1) * 2 ^ e := by
        gcongr
        linarith
      _ = 2 ^ ((m.log2 + 1 : ℕ) + e) := by rw [zpow_add₀ two_ne_zero, zpow_natCast]
      _ ≤ 2 ^ (t + spec.mantissaBits) := zpow_le_zpow_right₀ one_le_two (by omega)
  case refine_2 =>
    by_cases hlow : t = spec.minExponent
    case pos => exact .inl hlow
    case neg =>
      -- Without a digit before the point the exponent would be less than `e`.
      have hm : m ≠ 0 := by
        intro hz
        rw [hz, Nat.log2_zero] at hmax
        omega
      have hlog : (2 : ℚ) ^ m.log2 ≤ m := by exact_mod_cast Nat.log2_self_le hm
      refine .inr ?_
      calc
        (2 : ℚ) ^ (t + spec.mantissaBits - 1) = 2 ^ ((m.log2 : ℕ) + e) := by
          congr 1
          omega
        _ = 2 ^ m.log2 * 2 ^ e := by rw [zpow_add₀ two_ne_zero, zpow_natCast]
        _ ≤ (m + part) * 2 ^ e := by
          gcongr
          linarith [hpart.left]

-- Rounding up may need one more bit. Then the integer is a power of two, and halving it is exact.
theorem renormalize (ht : spec.minExponent ≤ t) (hm : m ≤ 2 ^ spec.mantissaBits) :
    ((shiftToTargetExponent spec m t .exact).1.mantissa,
      (shiftToTargetExponent spec m t .exact).2) =
    if m < 2 ^ spec.mantissaBits then (m, t) else (2 ^ (spec.mantissaBits - 1), t + 1) := by
  have hp := one_lt_mantissaBits spec
  have he : (shiftToTargetExponent spec m t .exact).1.mantissa =
      m / 2 ^ (spec.targetExponent (totalExponent m t) - t).toNat :=
    mantissa_shiftRight ..
  have hf : (shiftToTargetExponent spec m t .exact).2 =
      t + ((spec.targetExponent (totalExponent m t) - t).toNat : ℤ) := rfl
  have hmax : spec.targetExponent (totalExponent m t) =
      max (m.log2 + 1 + t - spec.mantissaBits) spec.minExponent := rfl
  rw [he, hf]
  split
  case isTrue hlt =>
    have hlog : m.log2 < spec.mantissaBits := by
      by_cases hz : m = 0
      case pos => rw [hz, Nat.log2_zero]; omega
      case neg => exact (Nat.log2_lt hz).mpr hlt
    rw [show (spec.targetExponent (totalExponent m t) - t).toNat = 0 by omega]
    simp
  case isFalse hlt =>
    have hm : m = 2 ^ spec.mantissaBits := by omega
    have hlog : m.log2 = spec.mantissaBits := by rw [hm, Nat.log2_two_pow]
    rw [show (spec.targetExponent (totalExponent m t) - t).toNat = 1 by omega, hm,
      Nat.pow_div hp.le two_pos]
    rfl

theorem Rounds.le {q : ℚ} {n : ℕ} (h : Rounds spec q n e) : n ≤ 2 ^ spec.mantissaBits := by
  refine h.rounded.le_of_ge ?_
  have hpos : (0 : ℚ) < 2 ^ e := by positivity
  rw [div_le_iff₀ hpos, Nat.cast_pow, Nat.cast_ofNat, ← zpow_natCast, ← zpow_add₀ two_ne_zero,
    add_comm]
  exact h.upper.le

theorem roundWithAccuracy_of_shift (s : Sign) {em : ExtendedMantissa} {scale : ℕ × ℤ}
    (h : shiftToTargetExponent spec m e accuracy = (em, t))
    (hs : ((shiftToTargetExponent spec em.roundedMantissa t .exact).1.mantissa,
      (shiftToTargetExponent spec em.roundedMantissa t .exact).2) = scale) :
    roundWithAccuracy spec s m e accuracy = finiteOrZero s scale.1 scale.2 := by
  rw [← hs, roundWithAccuracy, h]
  rfl

theorem roundWithAccuracy_eq (spec : Format) (s : Sign) (ha : Accurate accuracy part)
    (h : e ≤ spec.targetExponent (totalExponent m e)) :
    ∃ n t, Rounds spec ((m + part) * 2 ^ e) n t ∧
      roundWithAccuracy spec s m e accuracy = scaled spec s n t := by
  have ⟨em, hs, hr⟩ := exists_shift (m := m) ha h
  have hround := rounds_of_isRounded ha.nonneg_lt rfl h hr.isRounded
  refine ⟨_, _, hround, ?_⟩
  rw [roundWithAccuracy_of_shift s hs (renormalize hround.lower hround.le), scaled]
  split <;> rfl

end Shift

end PdfGraphics.Rounding
