import PdfGraphics.Geometry.PathBuilder
/-!
The grammar of outlines.

A well-formed outline is a row of subpaths. A path builder keeps its operations in this form, except
that the subpath it draws is not closed yet.
-/

namespace PdfGraphics

namespace PathOp

variable {α : Type} {op : PathOp α} {ops ops' before segments : List (PathOp α)} {p : Point α}

def isSegment : PathOp α → Bool
  | lineTo _ | curveTo .. => true
  | _ => false

-- A move that nothing was drawn from, or a move, what was drawn from it, and the closing operation.
inductive Subpath : List (PathOp α) → Prop
  | lone (p : Point α) : Subpath [moveTo p]
  | closed (p : Point α) {segments : List (PathOp α)} (nonempty : segments ≠ [])
    (drawn : ∀ op ∈ segments, op.isSegment) : Subpath (moveTo p :: segments ++ [close])

def Complete (ops : List (PathOp α)) : Prop :=
  ∃ subpaths : List (List (PathOp α)), (∀ s ∈ subpaths, Subpath s) ∧ ops = subpaths.flatten

-- Complete subpaths, and one that was begun with a move.
inductive Begun : List (PathOp α) → Prop
  | intro {before segments : List (PathOp α)} (p : Point α) (complete : Complete before)
    (drawn : ∀ op ∈ segments, op.isSegment) : Begun (before ++ moveTo p :: segments)

-- Complete subpaths, and one that something was drawn in and that only has to be closed.
inductive Unclosed : List (PathOp α) → Prop
  | intro {before segments : List (PathOp α)} (p : Point α) (complete : Complete before)
    (nonempty : segments ≠ []) (drawn : ∀ op ∈ segments, op.isSegment) :
    Unclosed (before ++ moveTo p :: segments)

theorem Subpath.complete (h : Subpath ops) : Complete ops :=
  ⟨[ops], by simpa using h, by simp⟩

namespace Complete

theorem nil : Complete ([] : List (PathOp α)) :=
  ⟨[], nofun, rfl⟩

theorem append : (Complete ops) → (Complete ops') → Complete (ops ++ ops')
  | ⟨s, hs, he⟩, ⟨s', hs', he'⟩ =>
    ⟨s ++ s', fun _ hm => (List.mem_append.mp hm).elim (hs _) (hs' _), by simp [he, he']⟩

theorem move (h : Complete ops) : Complete (ops ++ [moveTo p]) :=
  h.append (Subpath.lone p).complete

-- A move at the end is a subpath of its own.
theorem of_move (h : Complete (ops ++ [moveTo p])) : Complete ops := by
  have ⟨subpaths, hs, he⟩ := h
  rcases List.eq_nil_or_concat subpaths with rfl | ⟨before, last, rfl⟩
  · simp at he
  · simp only [List.concat_eq_append, List.flatten_append, List.flatten_singleton] at he
    have hb : ∀ s ∈ before, Subpath s := fun _ hm => hs _ (by simp [hm])
    cases hs last (by simp) with
    | lone q        =>
      exact ⟨before, hb, (List.append_inj' he rfl).left⟩
    | closed q _ _  =>
      rw [← List.append_assoc] at he
      have := (List.append_inj' he rfl).right
      simp at this

end Complete

theorem Begun.draw (h : Begun ops) (hop : op.isSegment) : Unclosed (ops ++ [op]) := by
  cases h with
  | intro p complete drawn =>
    rw [List.append_assoc, List.cons_append]
    refine .intro p complete (by simp) fun _ hm => ?_
    rcases List.mem_append.mp hm with hm | hm
    · exact drawn _ hm
    · exact List.mem_singleton.mp hm ▸ hop

namespace Unclosed

theorem begun : (Unclosed ops) → Begun ops
  | intro p complete _ drawn => .intro p complete drawn

theorem close (h : Unclosed ops) : Complete (ops ++ [PathOp.close]) := by
  cases h with
  | intro p complete nonempty drawn =>
    rw [List.append_assoc]
    exact complete.append (Subpath.closed p nonempty drawn).complete

end Unclosed

section

variable [Scalar α] {m : Matrix α}

@[simp] theorem isSegment_transform : (op.transform m).isSegment = op.isSegment := by
  cases op <;> rfl

theorem Subpath.transform (h : Subpath ops) : Subpath (ops.map (PathOp.transform m)) := by
  cases h with
  | lone p                   => exact .lone _
  | closed p nonempty drawn =>
    rw [List.map_append, List.map_cons]
    refine .closed _ (by simpa using nonempty) fun op hm => ?_
    have ⟨op', hm', he⟩ := List.mem_map.mp hm
    simpa [← he] using drawn _ hm'

theorem Complete.transform : (Complete ops) → Complete (ops.map (PathOp.transform m))
  | ⟨subpaths, hs, he⟩ => by
    refine ⟨subpaths.map (·.map (PathOp.transform m)), fun s hm => ?_, by simp [he, List.map_flatten]⟩
    have ⟨s', hm', he⟩ := List.mem_map.mp hm
    exact he ▸ (hs _ hm').transform

end

end PathOp

namespace Outline

variable {α : Type}

-- An outline whose subpaths all begin with a move, and are closed once if anything is drawn in them.
def WellFormed (o : Outline α) : Prop :=
  PathOp.Complete o.ops

theorem WellFormed.empty : WellFormed (empty : Outline α) :=
  .nil

theorem WellFormed.append [Scalar α] {o other : Outline α} {m : Matrix α} (h : o.WellFormed)
    (h' : other.WellFormed) : (o.append other m).WellFormed :=
  PathOp.Complete.append h h'.transform

end Outline

namespace PathBuilder

open PathOp

variable {α : Type}

-- The builder is open just when its last operation drew something.
def WellFormed (b : PathBuilder α) : Prop :=
  if b.isOpen then Unclosed b.drawn.reverse else Complete b.drawn.reverse

variable [Scalar α] {b : PathBuilder α}

theorem WellFormed.start : WellFormed (start : PathBuilder α) :=
  .nil

omit [Scalar α]

theorem isOpen_close : b.close.isOpen = false := by
  simp only [close]
  split
  case isTrue     => rfl
  case isFalse ho => simpa using ho

namespace WellFormed

theorem unclosed (h : b.WellFormed) (ho : b.isOpen) : Unclosed b.drawn.reverse := by
  rwa [WellFormed, if_pos ho] at h

theorem complete (h : b.WellFormed) (ho : ¬b.isOpen) : Complete b.drawn.reverse := by
  rwa [WellFormed, if_neg ho] at h

theorem complete_close (h : b.WellFormed) : Complete b.close.drawn.reverse := by
  simp only [PathBuilder.close]
  split
  case isTrue ho  => simpa using (h.unclosed ho).close
  case isFalse ho => exact h.complete ho

theorem close (h : b.WellFormed) : b.close.WellFormed := by
  simpa [WellFormed, isOpen_close] using h.complete_close

theorem finish (h : b.WellFormed) : b.finish.WellFormed :=
  h.complete_close

theorem begun_beginDrawing (h : b.WellFormed) : Begun b.beginDrawing.drawn.reverse := by
  simp only [beginDrawing]
  split
  case isTrue hb =>
    by_cases ho : b.isOpen
    case pos => exact (h.unclosed ho).begun
    case neg =>
      have hm : b.afterMove := by simpa [ho] using hb
      have hc := h.complete ho
      simp only [afterMove] at hm
      match hd : b.drawn, hm with
      | moveTo p :: before, _ =>
        rw [hd, List.reverse_cons] at hc
        simpa [hd] using @Begun.intro _ _ [] p hc.of_move nofun
  case isFalse hb =>
    have ho : ¬b.isOpen := fun ho => hb (by simp [ho])
    simpa using @Begun.intro _ _ [] b.pen (h.complete ho) nofun

theorem draw (h : b.WellFormed) {op : PathOp α} (hop : op.isSegment) (pen : Point α) :
    WellFormed { b.beginDrawing with drawn := op :: b.beginDrawing.drawn, pen } := by
  have ho : b.beginDrawing.isOpen := by
    simp only [beginDrawing]
    split <;> rfl
  simpa [WellFormed, ho] using h.begun_beginDrawing.draw hop

variable [Scalar α]

theorem moveBy (h : b.WellFormed) (dx dy : α) : (b.moveBy dx dy).WellFormed := by
  simpa [WellFormed, PathBuilder.moveBy, isOpen_close] using h.complete_close.move

theorem lineBy (h : b.WellFormed) (dx dy : α) : (b.lineBy dx dy).WellFormed :=
  h.draw rfl _

theorem curveBy (h : b.WellFormed) (dx₁ dy₁ dx₂ dy₂ dx₃ dy₃ : α) :
    (b.curveBy dx₁ dy₁ dx₂ dy₂ dx₃ dy₃).WellFormed :=
  h.draw rfl _

end WellFormed

end PathBuilder

end PdfGraphics
