import Mathlib
import PdfGraphics.Geometry.CubicBezier
import PdfGraphics.Proofs.Scalar.Real
/-!
One coordinate of a curve, in exact numbers.

It is a cubic polynomial in the parameter. Its greatest value is at an end or where the derivative
is zero. The solver for the derivative drops small leading coefficients, so a value can be greater
than those at the parameters it finds, but not by more than the threshold.
-/

namespace PdfGraphics.CubicBezier

open AnalyticScalar (epsilon)
open Set (Icc Ioo)

theorem inInterior_iff {t : ℝ} : inInterior t = true ↔ t ∈ Ioo 0 1 := by
  simp [inInterior]

-- A differentiable function has a greatest value, at an end or where it is level.
theorem exists_greatest {f f' : ℝ → ℝ} (h : ∀ t, HasDerivAt f (f' t) t) :
    ∃ s, (s = 0 ∨ s = 1 ∨ s ∈ Ioo 0 1 ∧ f' s = 0) ∧ ∀ t ∈ Icc 0 1, f t ≤ f s := by
  have hc : Continuous f := continuous_iff_continuousAt.mpr fun t => (h t).continuousAt
  have hn : (Icc (0 : ℝ) 1).Nonempty := Set.nonempty_Icc.mpr zero_le_one
  obtain ⟨s, hs, hmax⟩ := isCompact_Icc.exists_isMaxOn hn hc.continuousOn
  refine ⟨s, ?_, hmax⟩
  rcases hs.left.eq_or_lt with h0 | h0
  case inl => exact .inl h0.symm
  case inr =>
    rcases hs.right.eq_or_lt with h1 | h1
    case inl => exact .inr (.inl h1)
    case inr =>
      have hl : IsLocalMax f s := hmax.isLocalMax (Icc_mem_nhds h0 h1)
      exact .inr (.inr ⟨⟨h0, h1⟩, hl.hasDerivAt_eq_zero (h s)⟩)

-- The four control values of one coordinate.
structure Coordinate where
  p₀ : ℝ
  p₁ : ℝ
  p₂ : ℝ
  p₃ : ℝ

namespace Coordinate

-- The coefficients of a third of the derivative.
def a (p : Coordinate) : ℝ := -p.p₀ + 3 * p.p₁ - 3 * p.p₂ + p.p₃

def b (p : Coordinate) : ℝ := 2 * (p.p₀ - 2 * p.p₁ + p.p₂)

def c (p : Coordinate) : ℝ := p.p₁ - p.p₀

def value (p : Coordinate) (t : ℝ) : ℝ :=
  p.p₀ * (1 - t) ^ 3 + 3 * p.p₁ * (1 - t) ^ 2 * t + 3 * p.p₂ * (1 - t) * t ^ 2 + p.p₃ * t ^ 3

noncomputable def extrema (p : Coordinate) : List ℝ :=
  CubicBezier.extrema p.p₀ p.p₁ p.p₂ p.p₃

-- The parameters that count for a box.
noncomputable def stops (p : Coordinate) : List ℝ :=
  0 :: 1 :: p.extrema

-- The solver drops a coefficient that is not zero.
def Drops (p : Coordinate) : Prop :=
  |p.a| < epsilon ∧ (p.a ≠ 0 ∨ |p.b| < epsilon ∧ p.b ≠ 0)

open Classical in
-- How far the values can be from those at the stops.
noncomputable def slack (p : Coordinate) : ℝ :=
  if p.Drops then epsilon else 0

-- The coefficient of the square in the equation that is solved.
noncomputable def kept (p : Coordinate) : ℝ :=
  if |p.a| < epsilon then 0 else p.a

instance : Neg Coordinate where
  neg p := ⟨-p.p₀, -p.p₁, -p.p₂, -p.p₃⟩

variable (p : Coordinate) {t : ℝ}

theorem neg_eq : -p = ⟨-p.p₀, -p.p₁, -p.p₂, -p.p₃⟩ := rfl

@[simp] theorem a_neg : (-p).a = -p.a := by
  simp only [a, neg_eq]
  ring

@[simp] theorem b_neg : (-p).b = -p.b := by
  simp only [b, neg_eq]
  ring

@[simp] theorem c_neg : (-p).c = -p.c := by
  simp only [c, neg_eq]
  ring

@[simp] theorem value_neg : (-p).value t = -p.value t := by
  simp only [value, neg_eq]
  ring

@[simp] theorem kept_neg : (-p).kept = -p.kept := by
  simp only [kept, a_neg, abs_neg]
  split
  case isTrue  => exact neg_zero.symm
  case isFalse => rfl

open Classical in
@[simp] theorem slack_neg : (-p).slack = p.slack := by
  have h : (-p).Drops ↔ p.Drops := by
    simp only [Drops, a_neg, b_neg, abs_neg, ne_eq, neg_eq_zero]
  rw [slack, slack]
  exact if_congr h rfl rfl

theorem value_eq : p.value t = p.p₀ + 3 * p.c * t + 3 / 2 * p.b * t ^ 2 + p.a * t ^ 3 := by
  rw [value, a, b, c]
  ring

@[simp] theorem value_zero : p.value 0 = p.p₀ := by simp [value]

@[simp] theorem value_one : p.value 1 = p.p₃ := by simp [value]

theorem extrema_eq : p.extrema =
    if |p.a| < epsilon then
      if |p.b| < epsilon then [] else [-p.c / p.b].filter inInterior
    else if discrim p.a p.b p.c < 0 then
      []
    else
      [(-p.b + √(discrim p.a p.b p.c)) / (2 * p.a),
        (-p.b - √(discrim p.a p.b p.c)) / (2 * p.a)].filter inInterior := by
  simp only [extrema, CubicBezier.extrema, discrim, sq, Reals.zero_eq, Reals.two_eq, Reals.three_eq,
    Reals.four_eq, Reals.abs_eq, Reals.sqrt_eq]
  rfl

-- What the solver finds is just where the derivative is zero, but for the coefficients it drops.
theorem mem_extrema : t ∈ p.extrema ↔
    t ∈ Ioo 0 1 ∧ (epsilon ≤ |p.a| ∨ epsilon ≤ |p.b|) ∧ p.kept * t ^ 2 + p.b * t + p.c = 0 := by
  rw [extrema_eq, kept]
  split
  case isTrue ha =>
    split
    case isTrue hb  => simp [not_le.mpr ha, not_le.mpr hb]
    case isFalse hb =>
      have hb := not_lt.mp hb
      have hne : p.b ≠ 0 := abs_pos.mp (Reals.epsilon_pos.trans_le hb)
      have hroot : t = -p.c / p.b ↔ 0 * t ^ 2 + p.b * t + p.c = 0 := by
        rw [eq_div_iff hne, eq_neg_iff_add_eq_zero, zero_mul, zero_add, mul_comm t]
      rw [List.mem_filter, List.mem_singleton, inInterior_iff, hroot]
      tauto
  case isFalse ha =>
    have ha := not_lt.mp ha
    have hne : p.a ≠ 0 := abs_pos.mp (Reals.epsilon_pos.trans_le ha)
    rw [sq]
    split
    case isTrue hd  =>
      have hsq : ∀ s, discrim p.a p.b p.c ≠ s ^ 2 := fun s hs => (hs ▸ hd).not_ge (sq_nonneg s)
      have := quadratic_ne_zero_of_discrim_ne_sq hsq t
      simp [this]
    case isFalse hd =>
      have hs := (Real.mul_self_sqrt (not_lt.mp hd)).symm
      rw [List.mem_filter, inInterior_iff, quadratic_eq_zero_iff hne hs]
      simp only [List.mem_cons, List.not_mem_nil, or_false]
      tauto

theorem stops_subset (h : t ∈ p.stops) : t ∈ Icc 0 1 := by
  rcases List.mem_cons.mp h with rfl | h
  case inl => exact ⟨le_rfl, zero_le_one⟩
  case inr =>
    rcases List.mem_cons.mp h with rfl | h
    case inl => exact ⟨zero_le_one, le_rfl⟩
    case inr => exact Set.Ioo_subset_Icc_self (p.mem_extrema.mp h).left

theorem mem_stops_neg : t ∈ (-p).stops ↔ t ∈ p.stops := by
  have h : t ∈ (-p).extrema ↔ t ∈ p.extrema := by
    rw [mem_extrema, mem_extrema, a_neg, b_neg, c_neg, kept_neg, abs_neg, abs_neg,
      ← neg_eq_zero (a := -p.kept * t ^ 2 + -p.b * t + -p.c)]
    ring_nf
  simp only [stops, List.mem_cons, h]

theorem slack_nonneg : 0 ≤ p.slack := by
  rw [slack]
  split
  case isTrue  => exact Reals.epsilon_pos.le
  case isFalse => exact le_rfl

theorem abs_dropped_le : |p.a - p.kept| ≤ p.slack := by
  rw [kept]
  split
  case isTrue ha  =>
    rw [sub_zero]
    by_cases h0 : p.a = 0
    case pos => exact (abs_eq_zero.mpr h0).le.trans p.slack_nonneg
    case neg => exact ha.le.trans_eq (if_pos ⟨ha, .inl h0⟩).symm
  case isFalse => simpa using p.slack_nonneg

-- Without the two leading coefficients the values lie on a line.
theorem straight_le (ha : |p.a| < epsilon) (hb : |p.b| < epsilon) :
    3 / 8 * |p.b| + 1 / 2 * |p.a| ≤ p.slack := by
  by_cases h : p.a = 0 ∧ p.b = 0
  case pos => simpa [h] using p.slack_nonneg
  case neg =>
    have hd : p.Drops := ⟨ha, by tauto⟩
    rw [slack, if_pos hd]
    linarith [Reals.epsilon_pos]

theorem hasDerivAt_kept (t : ℝ) : HasDerivAt (fun t => p.value t - (p.a - p.kept) * t ^ 3)
    (3 * (p.kept * t ^ 2 + p.b * t + p.c)) t := by
  have h : (fun t => p.value t - (p.a - p.kept) * t ^ 3) =
      fun t => p.p₀ + 3 * p.c * t + 3 / 2 * p.b * t ^ 2 + p.kept * t ^ 3 := by
    funext t
    rw [value_eq]
    ring
  have h₁ := (hasDerivAt_id t).const_mul (3 * p.c)
  have h₂ := (hasDerivAt_pow 2 t).const_mul (3 / 2 * p.b)
  have h₃ := (hasDerivAt_pow 3 t).const_mul p.kept
  rw [h]
  refine (((h₁.const_add p.p₀).add h₂).add h₃).congr_deriv ?_
  norm_num
  ring

theorem exists_stop_ge_of_curved (h : epsilon ≤ |p.a| ∨ epsilon ≤ |p.b|) (ht : t ∈ Icc 0 1) :
    ∃ s ∈ p.stops, p.value t ≤ p.value s + p.slack := by
  obtain ⟨s, hs, hmax⟩ := exists_greatest p.hasDerivAt_kept
  have hs : s ∈ p.stops := by
    rcases hs with rfl | rfl | ⟨hs, hd⟩
    case inl       => exact .head _
    case inr.inl   => exact .tail _ (.head _)
    case inr.inr   =>
      have hd := (mul_eq_zero.mp hd).resolve_left three_ne_zero
      exact .tail _ (.tail _ (p.mem_extrema.mpr ⟨hs, h, hd⟩))
  have hcubes : |t ^ 3 - s ^ 3| ≤ 1 :=
    abs_sub_le_of_nonneg_of_le (pow_nonneg ht.left 3) (pow_le_one₀ ht.left ht.right)
      (pow_nonneg (p.stops_subset hs).left 3)
      (pow_le_one₀ (p.stops_subset hs).left (p.stops_subset hs).right)
  refine ⟨s, hs, ?_⟩
  calc p.value t
    _ ≤ p.value s + (p.a - p.kept) * (t ^ 3 - s ^ 3) := by linarith [hmax t ht]
    _ ≤ p.value s + |p.a - p.kept| * |t ^ 3 - s ^ 3| := by
      rw [← abs_mul]
      gcongr
      exact le_abs_self _
    _ ≤ p.value s + p.slack * 1 := by
      gcongr
      exacts [p.slack_nonneg, p.abs_dropped_le]
    _ = p.value s + p.slack := by rw [mul_one]

-- How far the curve is from the line between its ends.
theorem value_le_chord (ht : t ∈ Icc 0 1) :
    p.value t ≤ (1 - t) * p.value 0 + t * p.value 1 + (3 / 8 * |p.b| + 1 / 2 * |p.a|) := by
  have h₁ : 0 ≤ 1 + t := by linarith [ht.left]
  have hpos : 0 ≤ t * (1 - t) := mul_nonneg ht.left (sub_nonneg.mpr ht.right)
  have hle : t * (1 - t) ≤ 1 / 4 := by linarith [sq_nonneg (2 * t - 1)]
  have hsq : |3 / 2 * (t ^ 2 - t)| ≤ 3 / 8 := abs_le.mpr ⟨by linarith, by linarith⟩
  have hcube : |t ^ 3 - t| ≤ 1 / 2 := abs_le.mpr
    ⟨by linarith [mul_le_mul_of_nonneg_right hle h₁, ht.right], by linarith [mul_nonneg hpos h₁]⟩
  calc p.value t
    _ = (1 - t) * p.value 0 + t * p.value 1 + (3 / 2 * (t ^ 2 - t) * p.b + (t ^ 3 - t) * p.a) := by
      rw [value_eq, value_zero, value_one, a, b, c]
      ring
    _ ≤ (1 - t) * p.value 0 + t * p.value 1
        + (|3 / 2 * (t ^ 2 - t)| * |p.b| + |t ^ 3 - t| * |p.a|) := by
      rw [← abs_mul, ← abs_mul]
      gcongr <;> exact le_abs_self _
    _ ≤ (1 - t) * p.value 0 + t * p.value 1 + (3 / 8 * |p.b| + 1 / 2 * |p.a|) := by
      gcongr

theorem exists_stop_ge_of_straight (ha : |p.a| < epsilon) (hb : |p.b| < epsilon)
    (ht : t ∈ Icc 0 1) : ∃ s ∈ p.stops, p.value t ≤ p.value s + p.slack := by
  have hchord := p.value_le_chord ht
  have hslack := p.straight_le ha hb
  rcases le_total (p.value 0) (p.value 1) with h | h
  case inl => exact ⟨1, .tail _ (.head _), by nlinarith [ht.right]⟩
  case inr => exact ⟨0, .head _, by nlinarith [ht.left]⟩

theorem exists_stop_ge (ht : t ∈ Icc 0 1) : ∃ s ∈ p.stops, p.value t ≤ p.value s + p.slack := by
  by_cases h : AnalyticScalar.epsilon ≤ |p.a| ∨ AnalyticScalar.epsilon ≤ |p.b|
  case pos => exact p.exists_stop_ge_of_curved h ht
  case neg =>
    have h := not_or.mp h
    exact p.exists_stop_ge_of_straight (not_le.mp h.left) (not_le.mp h.right) ht

theorem exists_stop_le (ht : t ∈ Icc 0 1) : ∃ s ∈ p.stops, p.value s - p.slack ≤ p.value t := by
  obtain ⟨s, hs, hle⟩ := (-p).exists_stop_ge ht
  refine ⟨s, p.mem_stops_neg.mp hs, ?_⟩
  rw [value_neg, value_neg, slack_neg] at hle
  linarith

end Coordinate

end PdfGraphics.CubicBezier
