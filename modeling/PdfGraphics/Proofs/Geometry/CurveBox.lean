import PdfGraphics.Proofs.Geometry.Coordinate
/-!
The boxes of curves, in exact numbers.

Every side of the box is touched by the curve. The curve stays in the box as well, unless the solver
drops a coefficient; then it may leave by the threshold for coefficients.
-/

namespace PdfGraphics

open Set (Icc)

namespace Span

-- From the least to the greatest of some numbers.
structure Spans (s : Span ℝ) (vs : Set ℝ) : Prop where
  least    : IsLeast vs s.lo
  greatest : IsGreatest vs s.hi

def widened (s : Span ℝ) (d : ℝ) : Set ℝ :=
  Icc (s.lo - d) (s.hi + d)

theorem spans_singleton (v : ℝ) : Spans ⟨v, v⟩ {v} :=
  ⟨isLeast_singleton, isGreatest_singleton⟩

namespace Spans

variable {s : Span ℝ} {vs : Set ℝ} (h : s.Spans vs)
include h

theorem mem {v : ℝ} (hv : v ∈ vs) : v ∈ Icc s.lo s.hi :=
  ⟨h.least.right hv, h.greatest.right hv⟩

theorem join (v : ℝ) : (s.join ⟨v, v⟩).Spans (insert v vs) where
  least := by
    rw [Span.join, ← min_def_lt]
    exact h.least.insert v
  greatest := by
    rw [Span.join, ← max_def_lt, max_comm]
    exact h.greatest.insert v

end Spans

end Span

namespace BoundingBox

-- The box of some points.
structure Spans (b : BoundingBox ℝ) (x y : Span ℝ) (ps : Set (Point ℝ)) : Prop where
  eq : b = ⟨some x, some y⟩
  x  : x.Spans (Point.x '' ps)
  y  : y.Spans (Point.y '' ps)

theorem spans_ofPoint (p : Point ℝ) : (ofPoint p).Spans ⟨p.x, p.x⟩ ⟨p.y, p.y⟩ {p} where
  eq := by simp [ofPoint, Span.single?]
  x  := by simpa using Span.spans_singleton p.x
  y  := by simpa using Span.spans_singleton p.y

namespace Spans

variable {b : BoundingBox ℝ} {x y : Span ℝ} {ps : Set (Point ℝ)} {p : Point ℝ}

theorem mem (h : b.Spans x y ps) (hp : p ∈ ps) : p.x ∈ Icc x.lo x.hi ∧ p.y ∈ Icc y.lo y.hi :=
  ⟨h.x.mem ⟨p, hp, rfl⟩, h.y.mem ⟨p, hp, rfl⟩⟩

theorem addPoint (h : b.Spans x y ps) (p : Point ℝ) :
    (b.addPoint p).Spans (x.join ⟨p.x, p.x⟩) (y.join ⟨p.y, p.y⟩) (insert p ps) where
  eq := by simp [h.eq, BoundingBox.addPoint, ofPoint, Span.single?, merge]
  x  := by simpa [Set.image_insert_eq] using h.x.join p.x
  y  := by simpa [Set.image_insert_eq] using h.y.join p.y

theorem foldl (h : b.Spans x y ps) (qs : List (Point ℝ)) :
    ∃ x y, (qs.foldl BoundingBox.addPoint b).Spans x y (ps ∪ {q | q ∈ qs}) := by
  induction qs generalizing b x y ps with
  | nil          => exact ⟨x, y, by simpa using h⟩
  | cons q qs ih =>
    obtain ⟨x, y, h⟩ := ih (h.addPoint q)
    rw [Set.insert_union, ← Set.union_insert, ← List.setOfPred_mem_cons] at h
    exact ⟨x, y, h⟩

end Spans

theorem exists_spans (p : Point ℝ) (ps : List (Point ℝ)) :
    ∃ x y, (ofPoints (p :: ps)).Spans x y {q | q ∈ p :: ps} := by
  have hfirst : empty.addPoint p = ofPoint p := by simp [BoundingBox.addPoint, empty, merge]
  have ⟨x, y, h⟩ := (spans_ofPoint p).foldl ps
  rw [← Set.insert_eq, ← List.setOfPred_mem_cons] at h
  refine ⟨x, y, ?_⟩
  rw [ofPoints, List.foldl_cons, hfirst]
  exact h

end BoundingBox

namespace CubicBezier

open Coordinate

variable (c : CubicBezier ℝ) {t : ℝ}

def xs : Coordinate := ⟨c.start.x, c.control₁.x, c.control₂.x, c.finish.x⟩

def ys : Coordinate := ⟨c.start.y, c.control₁.y, c.control₂.y, c.finish.y⟩

noncomputable def stops : List ℝ :=
  0 :: 1 :: (c.xs.extrema ++ c.ys.extrema)

theorem basis_eq (t : ℝ) : c.basis t = ⟨c.xs.value t, c.ys.value t⟩ := by
  have h : ∀ p₀ p₁ p₂ p₃ : ℝ, p₀ * ((1 - t) * (1 - t) * (1 - t)) + 3 * p₁ * ((1 - t) * (1 - t)) * t
      + 3 * p₂ * (1 - t) * (t * t) + p₃ * (t * t * t) = value ⟨p₀, p₁, p₂, p₃⟩ t := by
    intro p₀ p₁ p₂ p₃
    rw [value]
    ring
  rw [xs, ys, ← h, ← h]
  simp only [basis, Reals.one_eq, Reals.three_eq]
  rfl

theorem boundingBox_eq : c.boundingBox = .ofPoints (c.stops.map c.basis) := by
  simp only [stops, List.map_cons, basis_eq c 0, basis_eq c 1, value_zero, value_one]
  rfl

theorem mem_stops : t ∈ c.stops ↔ t ∈ c.xs.stops ∨ t ∈ c.ys.stops := by
  simp only [stops, Coordinate.stops, List.mem_cons, List.mem_append]
  tauto

theorem stops_subset (h : t ∈ c.stops) : t ∈ Icc 0 1 :=
  (c.mem_stops.mp h).elim c.xs.stops_subset c.ys.stops_subset

theorem exists_spans_stops : ∃ x y, c.boundingBox.Spans x y (c.basis '' {t | t ∈ c.stops}) := by
  have h := BoundingBox.exists_spans (c.basis 0) ((1 :: (c.xs.extrema ++ c.ys.extrema)).map c.basis)
  have himage : c.basis '' {t | t ∈ c.stops} = {q | q ∈ c.stops.map c.basis} := by
    ext q
    simp
  rw [boundingBox_eq, himage]
  exact h

theorem Coordinate.mem_widened (p : Coordinate) {s : Span ℝ}
    (h : ∀ u ∈ p.stops, p.value u ∈ Icc s.lo s.hi) (ht : t ∈ Icc 0 1) :
    p.value t ∈ s.widened p.slack := by
  obtain ⟨u, hu, hlow⟩ := p.exists_stop_le ht
  obtain ⟨w, hw, hhigh⟩ := p.exists_stop_ge ht
  constructor
  case left  => linarith [(h u hu).left]
  case right => linarith [(h w hw).right]

-- The box with the spans `x` and `y` fits a curve: the curve is inside, up to the slack of each
-- coordinate, and touches every side.
structure Fits (c : CubicBezier ℝ) (x y : Span ℝ) : Prop where
  inside : ∀ t ∈ Icc (0 : ℝ) 1,
    (c.basis t).x ∈ x.widened c.xs.slack ∧ (c.basis t).y ∈ y.widened c.ys.slack
  left   : ∃ t ∈ Icc (0 : ℝ) 1, (c.basis t).x = x.lo ∧ (c.basis t).y ∈ Icc y.lo y.hi
  right  : ∃ t ∈ Icc (0 : ℝ) 1, (c.basis t).x = x.hi ∧ (c.basis t).y ∈ Icc y.lo y.hi
  bottom : ∃ t ∈ Icc (0 : ℝ) 1, (c.basis t).y = y.lo ∧ (c.basis t).x ∈ Icc x.lo x.hi
  top    : ∃ t ∈ Icc (0 : ℝ) 1, (c.basis t).y = y.hi ∧ (c.basis t).x ∈ Icc x.lo x.hi

theorem fits_of_spans {x y : Span ℝ} {b : BoundingBox ℝ}
    (h : b.Spans x y (c.basis '' {t | t ∈ c.stops})) : c.Fits x y where
  inside t ht := by
    have hstop : ∀ u ∈ c.stops, c.xs.value u ∈ Icc x.lo x.hi ∧ c.ys.value u ∈ Icc y.lo y.hi :=
      fun u hu => by simpa only [basis_eq] using h.mem ⟨u, hu, rfl⟩
    rw [basis_eq]
    exact ⟨c.xs.mem_widened (fun u hu => (hstop u (c.mem_stops.mpr (.inl hu))).left) ht,
      c.ys.mem_widened (fun u hu => (hstop u (c.mem_stops.mpr (.inr hu))).right) ht⟩
  left := by
    obtain ⟨_, ⟨t, ht, rfl⟩, he⟩ := h.x.least.left
    exact ⟨t, c.stops_subset ht, he, (h.mem ⟨t, ht, rfl⟩).right⟩
  right := by
    obtain ⟨_, ⟨t, ht, rfl⟩, he⟩ := h.x.greatest.left
    exact ⟨t, c.stops_subset ht, he, (h.mem ⟨t, ht, rfl⟩).right⟩
  bottom := by
    obtain ⟨_, ⟨t, ht, rfl⟩, he⟩ := h.y.least.left
    exact ⟨t, c.stops_subset ht, he, (h.mem ⟨t, ht, rfl⟩).left⟩
  top := by
    obtain ⟨_, ⟨t, ht, rfl⟩, he⟩ := h.y.greatest.left
    exact ⟨t, c.stops_subset ht, he, (h.mem ⟨t, ht, rfl⟩).left⟩

theorem boundingBox_fits (c : CubicBezier ℝ) :
    ∃ x y, c.boundingBox = ⟨some x, some y⟩ ∧ c.Fits x y := by
  have ⟨x, y, h⟩ := c.exists_spans_stops
  exact ⟨x, y, h.eq, c.fits_of_spans h⟩

-- An arch of three quarters of 2 ^ -30 in height.
noncomputable def smallArch : CubicBezier ℝ :=
  ⟨⟨0, 0⟩, ⟨0, (1 / 2 ^ 30 : ℚ)⟩, ⟨0, (1 / 2 ^ 30 : ℚ)⟩, ⟨0, 0⟩⟩

-- Its box has no height.
theorem smallArch_outside :
    smallArch.boundingBox = ⟨some ⟨0, 0⟩, some ⟨0, 0⟩⟩ ∧
    (1 / 2 : ℝ) ∈ Icc 0 1 ∧ 0 < (smallArch.basis (1 / 2)).y := by
  have hx : smallArch.xs.extrema = [] := by
    rw [extrema_eq]
    norm_num [smallArch, xs, a, b, Reals.epsilon_eq]
  have hy : smallArch.ys.extrema = [] := by
    rw [extrema_eq]
    norm_num [smallArch, ys, a, b, Reals.epsilon_eq, abs_of_pos]
  refine ⟨?_, by norm_num, ?_⟩
  case refine_1 =>
    have hends : smallArch.stops.map smallArch.basis = [⟨0, 0⟩, ⟨0, 0⟩] := by
      simp only [stops, hx, hy, List.nil_append, List.map_cons, List.map_nil, basis_eq, value_zero,
        value_one]
      rfl
    rw [boundingBox_eq, hends]
    simp [BoundingBox.ofPoints, BoundingBox.addPoint, BoundingBox.merge, BoundingBox.empty,
      BoundingBox.ofPoint, Span.single?, Span.join]
  case refine_2 =>
    rw [basis_eq]
    norm_num [value, smallArch, ys]

end CubicBezier

end PdfGraphics
