import PdfGraphics.Proofs.Scalar.Order
import PdfGraphics.Proofs.Scalar.Packing
/-!
The number of a format that is nearest to a rational number.

What a magnitude is rounded to and then packed is the nearest number of the format. Of two nearest
numbers it is the one with an even mantissa, and far enough out it is infinity. Hence a number that
the format holds is rounded to itself.
-/

namespace PdfGraphics.Rounding

open Float.Model (Format UnpackedFloat)
open Float.Model.UnpackedFloat

variable {spec : Format} {s : Sign} {m n : ℕ} {e : ℤ} {q w : ℚ} {u : UnpackedFloat}

def value? : UnpackedFloat → Option ℚ
  | .zero _         => some 0
  | .finite s m e _ => some ((side s : ℚ) * (m * 2 ^ e))
  | _               => none

def IsEven : UnpackedFloat → Prop
  | .finite _ m _ _ => Even m
  | _               => True

-- The numbers of a format.
def Holds (spec : Format) (w : ℚ) : Prop :=
  ∃ b, value? (unpack spec b) = some w

-- Half a unit beyond the greatest number, where rounding to infinity begins.
def limit (spec : Format) : ℚ :=
  (2 ^ spec.mantissaBits - 1 / 2) * 2 ^ maxExponent spec

structure IsNearest (spec : Format) (q : ℚ) (u : UnpackedFloat) : Prop where
  finite   : |q| < limit spec → ∃ v, value? u = some v ∧
    ∀ w, Holds spec w → |q - v| ≤ |q - w| ∧ (|q - w| = |q - v| → w = v ∨ IsEven u)
  infinite : limit spec ≤ |q| → u = .infinity (if q < 0 then .negative else .positive)

theorem side_mul_side (s : Sign) : (side s : ℚ) * side s = 1 := by
  cases s <;> norm_num [side]

theorem abs_side_mul (s : Sign) (q : ℚ) : |side s * q| = |q| := by
  cases s <;> simp [side]

theorem value?_finiteOrZero : value? (finiteOrZero s m e) = some ((side s : ℚ) * (m * 2 ^ e)) := by
  unfold finiteOrZero
  split
  case isTrue hm => simp [value?, hm]
  case isFalse   => rfl

theorem value?_scaled (h : n ≤ 2 ^ spec.mantissaBits) :
    value? (scaled spec s n e) = some ((side s : ℚ) * (n * 2 ^ e)) := by
  unfold scaled
  split
  case isTrue => exact value?_finiteOrZero
  case isFalse hn =>
    have hp := one_lt_mantissaBits spec
    have hn : (n : ℚ) = 2 ^ (spec.mantissaBits - 1) * 2 := by
      rw [← pow_succ, Nat.sub_add_cancel hp.le]
      exact_mod_cast Nat.le_antisymm h (Nat.le_of_not_lt hn)
    rw [value?_finiteOrZero, hn, zpow_add_one₀ two_ne_zero, Nat.cast_pow, Nat.cast_ofNat]
    congr 2
    ring

theorem isEven_scaled (h : Even n) : IsEven (scaled spec s n e) := by
  have hp := one_lt_mantissaBits spec
  have hpow : Even (2 ^ (spec.mantissaBits - 1)) := (even_two.pow_of_ne_zero (by omega))
  unfold scaled finiteOrZero
  split <;> split
  case isTrue.isTrue | isFalse.isTrue => trivial
  case isTrue.isFalse  => exact h
  case isFalse.isFalse => exact hpow

-- The exponent that a rounded magnitude ends up with.
def finalExponent (spec : Format) (n : ℕ) (e : ℤ) : ℤ :=
  if n < 2 ^ spec.mantissaBits then e else e + 1

theorem limit_eq (spec : Format) :
    limit spec = 2 ^ (spec.mantissaBits + maxExponent spec) - 2 ^ (maxExponent spec - 1) := by
  rw [limit, zpow_add₀ two_ne_zero, zpow_sub_one₀ two_ne_zero, zpow_natCast]
  ring

-- The integer before a power of two is odd, so halfway between the two the power is chosen.
theorem lt_half_iff {p : ℕ} {x : ℚ} (hp : 1 < p) (h : IsRounded x n) (hn : n ≤ 2 ^ p) :
    x < 2 ^ p - 1 / 2 ↔ n < 2 ^ p := by
  have hk : (2 ^ p - 1 : ℕ) + 1 = 2 ^ p := Nat.sub_add_cancel Nat.one_le_two_pow
  have hcast : ((2 ^ p - 1 : ℕ) : ℚ) = 2 ^ p - 1 := by
    rw [Nat.cast_sub Nat.one_le_two_pow]
    simp
  have ⟨hlo, hhi⟩ := abs_le.mp h.near
  constructor
  case mp =>
    intro hx
    by_contra hlt
    have hn : (n : ℚ) = 2 ^ p := by exact_mod_cast Nat.le_antisymm hn (Nat.le_of_not_lt hlt)
    linarith
  case mpr =>
    intro hlt
    have hle : (n : ℚ) ≤ 2 ^ p - 1 := hcast ▸ Nat.cast_le.mpr (by omega)
    refine lt_of_le_of_ne (by linarith) fun hx => ?_
    have hn : (n : ℚ) = (2 ^ p - 1 : ℕ) := hcast ▸ le_antisymm hle (by linarith)
    have heven : Even n := h.even (by rw [hx, hn, hcast]; norm_num)
    have hpow : Even (2 ^ p) := even_two.pow_of_ne_zero (by omega)
    rw [Nat.cast_inj.mp hn] at heven
    rw [← hk, Nat.even_add_one] at hpow
    exact hpow heven

namespace Rounds

theorem le_of_normal (h : Rounds spec q n e) (he : spec.minExponent < e) :
    (2 ^ (spec.mantissaBits - 1) : ℕ) ≤ q / 2 ^ e := by
  have hp := one_lt_mantissaBits spec
  have hpos : (0 : ℚ) < 2 ^ e := by positivity
  have hq := h.normal.resolve_left he.ne'
  have he : ((spec.mantissaBits - 1 : ℕ) : ℤ) + e = e + spec.mantissaBits - 1 := by omega
  rw [le_div_iff₀ hpos, Nat.cast_pow, Nat.cast_ofNat, ← zpow_natCast, ← zpow_add₀ two_ne_zero, he]
  exact hq

theorem canonical (h : Rounds spec q n e) (hn : n ≠ 0) :
    ∃ m, Canonical spec m (finalExponent spec n e) ∧
      scaled spec s n e = finiteOrZero s m (finalExponent spec n e) := by
  have hp := one_lt_mantissaBits spec
  have hlower := h.lower
  unfold scaled finalExponent
  split
  case isTrue hlt =>
    refine ⟨n, ⟨Nat.pos_of_ne_zero hn, hlt, h.lower, ?_⟩, rfl⟩
    rcases h.lower.eq_or_lt with heq | hlt
    case inl => exact .inl heq.symm
    case inr => exact .inr (h.rounded.le_of_le (h.le_of_normal hlt))
  case isFalse =>
    refine ⟨_, ⟨Nat.two_pow_pos _, ?_, by omega, .inr le_rfl⟩, rfl⟩
    exact Nat.pow_lt_pow_right one_lt_two (by omega)

-- Below the limit and only there the exponent is one that the format has.
theorem lt_limit_iff (h : Rounds spec q n e) (hs : spec.minExponent ≤ maxExponent spec) :
    q < limit spec ↔ finalExponent spec n e ≤ maxExponent spec := by
  have hp := one_lt_mantissaBits spec
  rw [finalExponent]
  rcases lt_trichotomy e (maxExponent spec) with he | he | he
  case inl =>
    refine iff_of_true ?_ (by split <;> omega)
    have hsmall : (2 : ℚ) ^ (maxExponent spec - 1) ≤
        2 ^ (spec.mantissaBits + maxExponent spec - 1) :=
      zpow_le_zpow_right₀ one_le_two (by omega)
    have hdouble : (2 : ℚ) ^ (spec.mantissaBits + maxExponent spec) =
        2 ^ (spec.mantissaBits + maxExponent spec - 1) * 2 := by
      rw [← zpow_add_one₀ two_ne_zero, sub_add_cancel]
    calc
      q < 2 ^ (e + spec.mantissaBits) := h.upper
      _ ≤ 2 ^ (spec.mantissaBits + maxExponent spec - 1) :=
        zpow_le_zpow_right₀ one_le_two (by omega)
      _ ≤ limit spec := by
        rw [limit_eq, hdouble]
        linarith
  case inr.inl =>
    have hpos : (0 : ℚ) < 2 ^ e := by positivity
    rw [limit, ← he, ← div_lt_iff₀ hpos, lt_half_iff hp h.rounded h.le]
    split <;> simp_all
  case inr.inr =>
    refine iff_of_false (not_lt.mpr ?_) (by split <;> omega)
    have hpos : (0 : ℚ) < 2 ^ (maxExponent spec - 1) := by positivity
    calc
      limit spec ≤ 2 ^ (spec.mantissaBits + maxExponent spec) := by
        rw [limit_eq]
        linarith
      _ ≤ 2 ^ (e + spec.mantissaBits - 1) := zpow_le_zpow_right₀ one_le_two (by omega)
      _ ≤ q := h.normal.resolve_left (by omega)

end Rounds

-- A number of a format is a multiple of a unit, or it is less than the magnitudes for that unit.
def OnGrid (spec : Format) (e : ℤ) (w : ℚ) : Prop :=
  (∃ k : ℤ, w = k * 2 ^ e) ∨ spec.minExponent < e ∧ |w| < (2 ^ (spec.mantissaBits - 1) : ℕ) * 2 ^ e

theorem OnGrid.side_mul (s : Sign) (h : OnGrid spec e w) : OnGrid spec e (side s * w) := by
  rcases h with ⟨k, hk⟩ | ⟨he, hw⟩
  case inl =>
    refine .inl ⟨side s * k, ?_⟩
    rw [hk, Int.cast_mul, mul_assoc]
  case inr => exact .inr ⟨he, (abs_side_mul s w).symm ▸ hw⟩

-- A number of a format is zero, or it has the form that the format has for it.
theorem Holds.cases (hs : spec.minExponent ≤ maxExponent spec) (h : Holds spec w) :
    w = 0 ∨ ∃ s m e, Canonical spec m e ∧ e ≤ maxExponent spec ∧ w = side s * (m * 2 ^ e) := by
  have ⟨b, hb⟩ := h
  cases hu : unpack spec b with
  | notANumber | infinity =>
    rw [hu] at hb
    cases hb
  | zero =>
    rw [hu] at hb
    exact .inl (Option.some.inj hb).symm
  | finite s m e =>
    have ⟨hc, he⟩ := canonical_of_unpack hs hu
    rw [hu] at hb
    exact .inr ⟨s, m, e, hc, he, (Option.some.inj hb).symm⟩

theorem Holds.onGrid (hs : spec.minExponent ≤ maxExponent spec) (h : Holds spec w)
    (he : spec.minExponent ≤ e) : OnGrid spec e w := by
  rcases h.cases hs with rfl | ⟨s, m, f, hc, _, rfl⟩
  case inl => exact .inl ⟨0, by simp⟩
  case inr =>
    apply OnGrid.side_mul s
    rcases le_or_gt e f with hle | hlt
    case inl =>
      have hf : f = ((f - e).toNat : ℤ) + e := by omega
      refine .inl ⟨m * 2 ^ (f - e).toNat, ?_⟩
      push_cast
      rw [hf, zpow_add₀ two_ne_zero, zpow_natCast, ← hf, mul_assoc]
    case inr =>
      have hp := one_lt_mantissaBits spec
      have hlower := hc.lower
      have hm : (m : ℚ) < 2 ^ spec.mantissaBits := by exact_mod_cast hc.lt
      refine .inr ⟨by omega, ?_⟩
      rw [abs_of_nonneg (by positivity)]
      calc
        (m : ℚ) * 2 ^ f < 2 ^ spec.mantissaBits * 2 ^ f := by gcongr
        _ = 2 ^ (spec.mantissaBits + f) := by rw [zpow_add₀ two_ne_zero, zpow_natCast]
        _ ≤ 2 ^ (((spec.mantissaBits - 1 : ℕ) : ℤ) + e) :=
          zpow_le_zpow_right₀ one_le_two (by omega)
        _ = (2 ^ (spec.mantissaBits - 1) : ℕ) * 2 ^ e := by
          rw [zpow_add₀ two_ne_zero, zpow_natCast, Nat.cast_pow, Nat.cast_ofNat]

-- No number of the format is nearer to a magnitude than what it is rounded to.
theorem Rounds.le_dist (h : Rounds spec q n e) (hw : OnGrid spec e w) :
    |q - n * 2 ^ e| ≤ |q - w| ∧ (|q - w| = |q - n * 2 ^ e| → w = n * 2 ^ e ∨ Even n) := by
  have hpos : (0 : ℚ) < 2 ^ e := by positivity
  have hdist (k : ℚ) : |q - k * 2 ^ e| = |q / 2 ^ e - k| * 2 ^ e := by
    rw [← abs_of_pos hpos, ← abs_mul, abs_of_pos hpos, sub_mul, div_mul_cancel₀ _ hpos.ne']
  rcases hw with ⟨k, rfl⟩ | ⟨he, hw⟩
  case inl =>
    rw [hdist, hdist]
    refine ⟨mul_le_mul_of_nonneg_right (h.rounded.le_dist k) hpos.le, fun heq => ?_⟩
    refine (h.rounded.eq_or_even (mul_right_cancel₀ hpos.ne' heq)).imp_left fun hk => ?_
    rw [hk, Int.cast_natCast]
  case inr =>
    have hk := (le_div_iff₀ hpos).mp (h.le_of_normal he)
    have hlt : |q - n * 2 ^ e| < |q - w| := by
      calc
        |q - n * 2 ^ e| ≤ |q - ((2 ^ (spec.mantissaBits - 1) : ℕ) : ℤ) * 2 ^ e| := by
          rw [hdist, hdist]
          exact mul_le_mul_of_nonneg_right (h.rounded.le_dist _) hpos.le
        _ = q - (2 ^ (spec.mantissaBits - 1) : ℕ) * 2 ^ e := by
          rw [Int.cast_natCast, abs_of_nonneg (sub_nonneg.mpr hk)]
        _ < q - w := sub_lt_sub_left (lt_of_abs_lt hw) q
        _ ≤ |q - w| := le_abs_self _
    exact ⟨hlt.le, fun heq => absurd heq hlt.ne'⟩

theorem limit_pos (spec : Format) : 0 < limit spec := by
  have hp : (1 : ℚ) ≤ 2 ^ spec.mantissaBits := one_le_pow₀ one_le_two
  exact mul_pos (by linarith) (by positivity)

theorem dist_side (s : Sign) (q w : ℚ) : |side s * q - w| = |q - side s * w| := by
  rw [← abs_side_mul s (q - side s * w), mul_sub, ← mul_assoc, side_mul_side, one_mul]

namespace Rounds

variable (hs : spec.minExponent ≤ maxExponent spec)

include hs

theorem unpack_pack_scaled (h : Rounds spec q n e) (hq : q < limit spec) :
    unpack spec (pack spec (scaled spec s n e)) = scaled spec s n e := by
  by_cases hn : n = 0
  case pos => rw [hn, scaled_zero, unpack_pack_zero]
  case neg =>
    have ⟨m, hc, hm⟩ := h.canonical (s := s) hn
    rw [hm, ← finite_eq hc.pos, unpack_pack_finite hc ((h.lt_limit_iff hs).mp hq)]

theorem unpack_pack_scaled_infinity (h : Rounds spec q n e) (hq : limit spec ≤ q) :
    unpack spec (pack spec (scaled spec s n e)) = .infinity s := by
  have he : maxExponent spec < finalExponent spec n e :=
    not_le.mp fun he => not_lt.mpr hq ((h.lt_limit_iff hs).mpr he)
  have hn : n ≠ 0 := by
    intro hn
    rw [hn, finalExponent, if_pos (Nat.two_pow_pos _)] at he
    have hle := h.rounded.le_of_le (h.le_of_normal (hs.trans_lt he))
    have := Nat.two_pow_pos (spec.mantissaBits - 1)
    omega
  have ⟨m, hc, hm⟩ := h.canonical (s := s) hn
  rw [hm, ← finite_eq hc.pos, unpack_pack_overflow hc he]

theorem isNearest (h : Rounds spec q n e) (s : Sign) :
    IsNearest spec (side s * q) (unpack spec (pack spec (scaled spec s n e))) where
  finite   := by
    intro hq
    rw [abs_side_mul, abs_of_nonneg h.nonneg] at hq
    rw [h.unpack_pack_scaled hs hq]
    refine ⟨_, value?_scaled h.le, fun w hw => ?_⟩
    have ⟨hle, heq⟩ := h.le_dist ((hw.onGrid hs h.lower).side_mul s)
    rw [dist_side, dist_side, ← mul_assoc, side_mul_side, one_mul]
    refine ⟨hle, fun hd => (heq hd).imp (fun hw => ?_) isEven_scaled⟩
    rw [← hw, ← mul_assoc, side_mul_side, one_mul]
  infinite := by
    intro hq
    rw [abs_side_mul, abs_of_nonneg h.nonneg] at hq
    have hpos := (limit_pos spec).trans_le hq
    rw [h.unpack_pack_scaled_infinity hs hq]
    cases s with
    | negative => rw [if_pos (by simpa [side] using hpos)]
    | positive => rw [if_neg (by simpa [side] using hpos.le)]

end Rounds

-- The greatest mantissa and the greatest exponent give the greatest number.
theorem mul_lt_limit (hm : m < 2 ^ spec.mantissaBits) (he : e ≤ maxExponent spec) :
    (m : ℚ) * 2 ^ e < limit spec := by
  have hm : (m : ℚ) + 1 ≤ 2 ^ spec.mantissaBits := by exact_mod_cast hm
  have hpos : (0 : ℚ) < 2 ^ maxExponent spec := by positivity
  calc
    (m : ℚ) * 2 ^ e ≤ m * 2 ^ maxExponent spec :=
      mul_le_mul_of_nonneg_left (zpow_le_zpow_right₀ one_le_two he) m.cast_nonneg
    _ < limit spec := mul_lt_mul_of_pos_right (by linarith) hpos

section Exact

variable (hs : spec.minExponent ≤ maxExponent spec)

include hs

theorem Holds.lt_limit (h : Holds spec w) : |w| < limit spec := by
  rcases h.cases hs with rfl | ⟨s, m, e, hc, he, rfl⟩
  case inl => exact abs_zero.trans_lt (limit_pos spec)
  case inr =>
    rw [abs_side_mul, abs_of_nonneg (by positivity)]
    exact mul_lt_limit hc.lt he

-- A number that the format holds is nearest to itself only.
theorem IsNearest.value (h : IsNearest spec q u) (hq : Holds spec q) : value? u = some q := by
  have ⟨v, hv, hn⟩ := h.finite (hq.lt_limit hs)
  have hle := (hn q hq).left
  rw [sub_self, abs_zero, abs_nonpos_iff, sub_eq_zero] at hle
  rw [hv, hle]

end Exact

end PdfGraphics.Rounding
