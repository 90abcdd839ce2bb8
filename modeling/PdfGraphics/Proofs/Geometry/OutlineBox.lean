import PdfGraphics.Proofs.Geometry.Subpath
import PdfGraphics.Proofs.Scalar.Order
/-!
The boxes of outlines.

The box of an outline is the box of the points that its strokes mark, in the order in which they are
drawn. It can be made in parts, as a point that is added between two others may be added to the one
before it or to the one after it. Only the pen is carried from one part to the next.
-/

namespace PdfGraphics

namespace Span

-- Of two values, the left one unless the right one comes before it.
theorem pick_assoc {α : Type} {r : α → α → Prop} [DecidableRel r] {x y z : α}
    (htrans : r z y → r y x → r z x) (hbetween : r z x → r z y ∨ r y x) :
    (if r z (if r y x then y else x) then z else if r y x then y else x) =
      if r (if r z y then z else y) x then (if r z y then z else y) else x := by
  by_cases hy : r y x
  case pos =>
    by_cases hz : r z y
    case pos => simp only [hy, hz, htrans hz hy, if_true]
    case neg => simp only [hy, hz, if_true, if_false]
  case neg =>
    by_cases hz : r z y
    case pos => simp only [hy, hz, if_true, if_false]
    case neg =>
      have hx : ¬r z x := fun hx => (hbetween hx).elim hz hy
      simp only [hy, hz, hx, if_false]

variable {s t u : Span Float32} {v : Float32} {vs vs' : List Float32}
variable {axis axis' before after : Option (Span Float32)}

structure Numeric (s : Span Float32) : Prop where
  lo : s.lo.toModel.unpack ≠ .notANumber
  hi : s.hi.toModel.unpack ≠ .notANumber

-- Of numbers that are neither less nor greater, such as zeros, the left one is taken. What is no
-- number is never taken from the right, so only the one in the middle has to be a number.
theorem join_assoc (ht : t.Numeric) : (s.join t).join u = s.join (t.join u) := by
  have hlo := pick_assoc (x := s.lo) Binary32.lt_trans (@Binary32.lt_or_lt u.lo _ _ ht.lo)
  have hhi := pick_assoc (r := fun x y => y < x) (fun h h' => Binary32.lt_trans h' h)
    fun h => (@Binary32.lt_or_lt s.hi _ u.hi ht.hi h).symm
  exact congrArg₂ Span.mk hlo hhi

theorem merge_join_assoc (h : ∀ t ∈ axis, t.Numeric) :
    (before.merge join axis).merge join after = before.merge join (axis.merge join after) := by
  cases before <;> cases axis <;> cases after
  case some.some.some => exact congrArg some (join_assoc (h _ rfl))
  all_goals rfl

theorem numeric_of_single (h : s ∈ single? v) : s.Numeric := by
  simp only [single?] at h
  split at h
  case isTrue hv =>
    cases h
    exact ⟨Binary32.isNumber_iff.mp hv, Binary32.isNumber_iff.mp hv⟩
  case isFalse   => cases h

theorem Numeric.join (hs : s.Numeric) (ht : t.Numeric) : (s.join t).Numeric := by
  simp only [Span.join]
  constructor <;> dsimp only <;> split
  exacts [ht.lo, hs.lo, ht.hi, hs.hi]

-- A span within another.
structure Within (s t : Span Float32) : Prop where
  lo : t.lo ≤ s.lo
  hi : s.hi ≤ t.hi

theorem within_join_left (hs : s.Numeric) : s.Within (s.join t) := by
  simp only [join]
  constructor <;> dsimp only <;> split
  case lo.isTrue h | hi.isTrue h => exact Binary32.le_of_lt h
  case lo.isFalse                => exact Binary32.le_self hs.lo
  case hi.isFalse                => exact Binary32.le_self hs.hi

theorem within_join_right (hs : s.Numeric) (ht : t.Numeric) : t.Within (s.join t) := by
  simp only [join]
  constructor <;> dsimp only <;> split
  case lo.isTrue    => exact Binary32.le_self ht.lo
  case hi.isTrue    => exact Binary32.le_self ht.hi
  case lo.isFalse h => exact Binary32.le_of_not_lt hs.lo ht.lo h
  case hi.isFalse h => exact Binary32.le_of_not_lt ht.hi hs.hi h

-- If it is a number, it is neither less than the least of the axis nor greater than the greatest.
def Holds (axis : Option (Span Float32)) (v : Float32) : Prop :=
  Scalar.isNumber v → ∃ s ∈ axis, s.lo ≤ v ∧ v ≤ s.hi

-- An axis on which some values were seen.
structure Covers (axis : Option (Span Float32)) (vs : List Float32) : Prop where
  numeric : ∀ s ∈ axis, s.Numeric
  holds   : ∀ v ∈ vs, Holds axis v

theorem covers_single (v : Float32) : Covers (single? v) [v] := by
  refine ⟨fun _ => numeric_of_single, List.forall_mem_singleton.mpr fun hv => ?_⟩
  have hle := Binary32.le_self (Binary32.isNumber_iff.mp hv)
  exact ⟨⟨v, v⟩, if_pos hv, hle, hle⟩

theorem Holds.mono (h : Holds axis v) (hw : ∀ s ∈ axis, ∃ t ∈ axis', s.Within t) :
    Holds axis' v := by
  intro hv
  have ⟨s, hs, hlo, hhi⟩ := h hv
  have ⟨t, ht, hst⟩ := hw s hs
  exact ⟨t, ht, Binary32.le_trans hst.lo hlo, Binary32.le_trans hhi hst.hi⟩

theorem Covers.merge (h : Covers axis vs) (h' : Covers axis' vs') :
    Covers (axis.merge join axis') (vs ++ vs') := by
  match axis, axis' with
  | none, _        =>
    rw [Option.merge_none_left]
    refine ⟨h'.numeric, List.forall_mem_append.mpr ⟨fun v hv => ?_, h'.holds⟩⟩
    exact (h.holds v hv).mono nofun
  | some s, none   =>
    refine ⟨h.numeric, List.forall_mem_append.mpr ⟨h.holds, fun v hv => ?_⟩⟩
    exact (h'.holds v hv).mono nofun
  | some s, some t =>
    have hs := h.numeric s rfl
    have ht := h'.numeric t rfl
    refine ⟨fun _ he => ?_, List.forall_mem_append.mpr ⟨fun v hv => ?_, fun v hv => ?_⟩⟩
    case refine_1 => exact Option.mem_some.mp he ▸ hs.join ht
    case refine_2 =>
      exact (h.holds v hv).mono fun _ he =>
        ⟨_, rfl, Option.mem_some.mp he ▸ within_join_left hs⟩
    case refine_3 =>
      exact (h'.holds v hv).mono fun _ he =>
        ⟨_, rfl, Option.mem_some.mp he ▸ within_join_right hs ht⟩

end Span

namespace BoundingBox

variable {p : Point Float32} {ps : List (Point Float32)}

theorem merge_empty (b : BoundingBox Float32) : b.merge empty = b := by
  simp [merge, empty]

theorem empty_addPoint (p : Point Float32) : empty.addPoint p = ofPoint p := by
  simp [addPoint, merge, empty]

theorem addPoint_merge (b c : BoundingBox Float32) (p : Point Float32) :
    (b.addPoint p).merge c = b.merge ((ofPoint p).merge c) :=
  congrArg₂ BoundingBox.mk (Span.merge_join_assoc fun _ => Span.numeric_of_single)
    (Span.merge_join_assoc fun _ => Span.numeric_of_single)

-- Points may be gathered in a box of their own first.
theorem foldl_addPoint (b : BoundingBox Float32) (ps : List (Point Float32)) :
    ps.foldl addPoint b = b.merge (ofPoints ps) := by
  induction ps generalizing b with
  | nil          => exact (merge_empty b).symm
  | cons p ps ih =>
    calc
      (p :: ps).foldl addPoint b = (b.addPoint p).merge (ofPoints ps) := ih _
      _ = b.merge ((ofPoint p).merge (ofPoints ps)) := addPoint_merge ..
      _ = b.merge ((empty.addPoint p).merge (ofPoints ps)) := by rw [empty_addPoint]
      _ = b.merge (ofPoints (p :: ps)) := congrArg b.merge (ih _).symm

theorem ofPoints_cons (p : Point Float32) (ps : List (Point Float32)) :
    ofPoints (p :: ps) = (ofPoint p).merge (ofPoints ps) := by
  rw [ofPoints, List.foldl_cons, foldl_addPoint, empty_addPoint]

theorem ofPoints_append (ps qs : List (Point Float32)) :
    ofPoints (ps ++ qs) = (ofPoints ps).merge (ofPoints qs) := by
  rw [ofPoints, List.foldl_append, foldl_addPoint]
  rfl

-- Each coordinate that is a number is within the box on its axis.
structure Holds (b : BoundingBox Float32) (p : Point Float32) : Prop where
  x : Span.Holds b.x p.x
  y : Span.Holds b.y p.y

structure Covers (b : BoundingBox Float32) (ps : List (Point Float32)) : Prop where
  x : Span.Covers b.x (ps.map Point.x)
  y : Span.Covers b.y (ps.map Point.y)

theorem covers_ofPoints (ps : List (Point Float32)) : (ofPoints ps).Covers ps := by
  induction ps with
  | nil          => exact ⟨⟨nofun, nofun⟩, ⟨nofun, nofun⟩⟩
  | cons p ps ih =>
    rw [ofPoints_cons]
    exact ⟨(Span.covers_single p.x).merge ih.x, (Span.covers_single p.y).merge ih.y⟩

theorem holds_ofPoints (h : p ∈ ps) : (ofPoints ps).Holds p where
  x := (covers_ofPoints ps).x.holds _ (List.mem_map_of_mem h)
  y := (covers_ofPoints ps).y.holds _ (List.mem_map_of_mem h)

end BoundingBox

-- What one operation draws.
inductive Stroke (α : Type)
  | line (start finish : Point α)
  | curve (c : CubicBezier α)

namespace Stroke

variable {α : Type}

def start : Stroke α → Point α
  | line start _ => start
  | curve c => c.start

def finish : Stroke α → Point α
  | line _ finish => finish
  | curve c => c.finish

-- The points that count for a box: the two ends, and where a curve turns.
def marks [AnalyticScalar α] : Stroke α → List (Point α)
  | line start finish => [start, finish]
  | curve c =>
    let turns := CubicBezier.extrema c.start.x c.control₁.x c.control₂.x c.finish.x
      ++ CubicBezier.extrema c.start.y c.control₁.y c.control₂.y c.finish.y
    c.start :: c.finish :: turns.map c.basis

variable [AnalyticScalar α]

theorem start_mem_marks (s : Stroke α) : s.start ∈ s.marks := by
  cases s <;> exact List.mem_cons_self

theorem finish_mem_marks (s : Stroke α) : s.finish ∈ s.marks := by
  cases s <;> exact List.mem_cons_of_mem _ List.mem_cons_self

end Stroke

namespace PathOp

variable {α : Type} {ops : List (PathOp α)}

def isClose : PathOp α → Bool
  | close => true
  | _ => false

-- What operations draw, for a pen that stands at `pen`.
def strokes (pen : Point α) : List (PathOp α) → List (Stroke α)
  | [] => []
  | moveTo p :: rest => strokes p rest
  | lineTo p :: rest => .line pen p :: strokes p rest
  | curveTo c₁ c₂ p :: rest => .curve ⟨pen, c₁, c₂, p⟩ :: strokes p rest
  | close :: rest => strokes pen rest

-- Where they leave the pen.
def penAfter (pen : Point α) : List (PathOp α) → Point α
  | [] => pen
  | moveTo p :: rest | lineTo p :: rest | curveTo _ _ p :: rest => penAfter p rest
  | close :: rest => penAfter pen rest

-- Operations that draw nothing from where the pen stands before them: they draw nothing at all, or
-- they move the pen first.
def Fresh (ops : List (PathOp α)) : Prop :=
  (∀ op ∈ ops, op.isSegment = false) ∨ ∃ p, ops.find? (!·.isClose) = some (moveTo p)

theorem strokes_append (pen : Point α) (before after : List (PathOp α)) :
    strokes pen (before ++ after) = strokes pen before ++ strokes (penAfter pen before) after := by
  induction before generalizing pen with
  | nil            => rfl
  | cons op ops ih =>
    cases op with
    | moveTo p | close   => exact ih _
    | lineTo p | curveTo => exact congrArg (_ :: ·) (ih _)

theorem strokes_eq_nil (pen : Point α) (h : ∀ op ∈ ops, op.isSegment = false) :
    strokes pen ops = [] := by
  induction ops generalizing pen with
  | nil            => rfl
  | cons op ops ih =>
    have ⟨hop, hops⟩ := List.forall_mem_cons.mp h
    cases op with
    | moveTo p | close   => exact ih _ hops
    | lineTo p | curveTo => cases hop

theorem Fresh.strokes_eq (h : Fresh ops) (pen pen' : Point α) :
    strokes pen ops = strokes pen' ops := by
  rcases h with h | ⟨p, h⟩
  case inl => rw [strokes_eq_nil pen h, strokes_eq_nil pen' h]
  case inr =>
    induction ops with
    | nil            => rfl
    | cons op ops ih =>
      cases op with
      | moveTo p           => rfl
      | close              => exact ih h
      | lineTo p | curveTo => cases h

end PathOp

namespace Outline

open PathOp (Fresh strokes penAfter)

variable {before after : List (PathOp Float32)}

theorem extend_eq (pen : Point Float32) (b : BoundingBox Float32) (ops : List (PathOp Float32)) :
    extend pen b ops = ((strokes pen ops).flatMap Stroke.marks).foldl .addPoint b := by
  induction ops generalizing pen b with
  | nil            => rfl
  | cons op ops ih =>
    cases op with
    | moveTo p | close => exact ih ..
    | lineTo p         => exact ih ..
    | curveTo c₁ c₂ p  =>
      let c : CubicBezier Float32 := ⟨pen, c₁, c₂, p⟩
      have hc : b.merge c.boundingBox = (Stroke.curve c).marks.foldl .addPoint b :=
        (BoundingBox.foldl_addPoint ..).symm
      rw [strokes, List.flatMap_cons, List.foldl_append, ← hc, extend, ih]

-- The box of what is drawn.
theorem boundingBox_eq (ops : List (PathOp Float32)) :
    boundingBox ⟨ops⟩ = .ofPoints ((strokes .origin ops).flatMap Stroke.marks) :=
  extend_eq ..

theorem boundingBox_append (before after : List (PathOp Float32)) :
    boundingBox ⟨before ++ after⟩ =
      (boundingBox ⟨before⟩).merge (boundingBox ⟨.moveTo (penAfter .origin before) :: after⟩) := by
  simp only [boundingBox_eq, strokes, PathOp.strokes_append, List.flatMap_append,
    BoundingBox.ofPoints_append]

theorem boundingBox_moveTo (h : Fresh after) (p : Point Float32) :
    boundingBox ⟨.moveTo p :: after⟩ = boundingBox ⟨after⟩ := by
  rw [boundingBox_eq, boundingBox_eq, strokes, h.strokes_eq p .origin]

theorem holds_stroke {s : Stroke Float32} {ops : List (PathOp Float32)}
    (h : s ∈ strokes .origin ops) :
    (boundingBox ⟨ops⟩).Holds s.start ∧ (boundingBox ⟨ops⟩).Holds s.finish := by
  rw [boundingBox_eq]
  exact ⟨BoundingBox.holds_ofPoints (List.mem_flatMap.mpr ⟨s, h, s.start_mem_marks⟩),
    BoundingBox.holds_ofPoints (List.mem_flatMap.mpr ⟨s, h, s.finish_mem_marks⟩)⟩

theorem boundingBox_eq_empty {ops : List (PathOp Float32)} (h : ∀ op ∈ ops, op.isSegment = false) :
    boundingBox ⟨ops⟩ = .empty := by
  rw [boundingBox_eq, PathOp.strokes_eq_nil _ h]
  rfl

theorem boundingBox_append_fresh (h : Fresh after) :
    boundingBox ⟨before ++ after⟩ = (boundingBox ⟨before⟩).merge (boundingBox ⟨after⟩) := by
  rw [boundingBox_append, boundingBox_moveTo h]

-- A move that nothing is drawn from may be left out.
theorem boundingBox_loneMove (h : Fresh after) (p : Point Float32) :
    boundingBox ⟨before ++ .moveTo p :: after⟩ = boundingBox ⟨before ++ after⟩ := by
  have hp : Fresh (.moveTo p :: after) := .inr ⟨p, rfl⟩
  rw [boundingBox_append_fresh hp, boundingBox_moveTo h, boundingBox_append_fresh h]

-- The boxes agree even in the signs of zeros.
theorem boundingBox_composes (before after : List (PathOp Float32)) :
    (Fresh after →
      boundingBox ⟨before ++ after⟩ = (boundingBox ⟨before⟩).merge (boundingBox ⟨after⟩) ∧
      ∀ p, boundingBox ⟨before ++ .moveTo p :: after⟩ = boundingBox ⟨before ++ after⟩) ∧
    (∀ s ∈ strokes .origin before,
      (boundingBox ⟨before⟩).Holds s.start ∧ (boundingBox ⟨before⟩).Holds s.finish) ∧
    ((∀ op ∈ before, op.isSegment = false) →
      boundingBox ⟨before⟩ = .empty ∧ (boundingBox ⟨before⟩).isEmpty) := by
  refine ⟨fun h => ⟨boundingBox_append_fresh h, boundingBox_loneMove h⟩, fun _ => holds_stroke,
    fun h => ?_⟩
  rw [boundingBox_eq_empty h]
  exact ⟨rfl, rfl⟩

def notNumber : Float32 := Float32.ofBits 0x7fc00000

-- Two lines with ends that are infinitely far away on one axis or have no place on it. The second
-- part begins where the first is closed.
def firstLine : List (PathOp Float32) :=
  [.moveTo ⟨notNumber, Binary32.posInf⟩, .lineTo ⟨1, 2⟩]

def secondLine : List (PathOp Float32) :=
  [.close, .moveTo ⟨3, Binary32.negInf⟩, .lineTo ⟨4, notNumber⟩]

theorem boundingBox_composes_lines :
    Fresh secondLine ∧
    boundingBox ⟨firstLine ++ secondLine⟩ =
      ⟨some ⟨1, 4⟩, some ⟨Binary32.negInf, Binary32.posInf⟩⟩ ∧
    boundingBox ⟨firstLine ++ .moveTo ⟨5, 6⟩ :: secondLine⟩ =
      boundingBox ⟨firstLine ++ secondLine⟩ ∧
    (boundingBox ⟨firstLine⟩).Holds ⟨notNumber, Binary32.posInf⟩ ∧
    (boundingBox ⟨[.moveTo ⟨(5 : Float32), 6⟩, .close]⟩).isEmpty := by
  have ⟨happend, hholds, _⟩ := boundingBox_composes firstLine secondLine
  have hfresh : Fresh secondLine := .inr ⟨⟨3, Binary32.negInf⟩, rfl⟩
  have ⟨hmerge, hlone⟩ := happend hfresh
  have ⟨_, _, hempty⟩ := boundingBox_composes [.moveTo ⟨5, 6⟩, .close] []
  exact ⟨hfresh, hmerge.trans (by decide +kernel), hlone _, (hholds _ List.mem_cons_self).left,
    (hempty (by decide)).right⟩

end Outline

end PdfGraphics
