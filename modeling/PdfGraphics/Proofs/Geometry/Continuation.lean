import PdfGraphics.Proofs.Geometry.Subpath
/-!
Drawing on.

What a path builder has drawn stays as it is: later operations are added after it.
-/

namespace PdfGraphics.PathBuilder

variable {α : Type} [Scalar α] {b b₁ b₂ : PathBuilder α}

-- The builder `b₂` comes from `b₁` by drawing.
inductive Continues (b₁ : PathBuilder α) : PathBuilder α → Prop
  | refl : Continues b₁ b₁
  | close {b : PathBuilder α} : (Continues b₁ b) → Continues b₁ b.close
  | moveBy {b : PathBuilder α} (dx dy : α) : (Continues b₁ b) → Continues b₁ (b.moveBy dx dy)
  | lineBy {b : PathBuilder α} (dx dy : α) : (Continues b₁ b) → Continues b₁ (b.lineBy dx dy)
  | curveBy {b : PathBuilder α} (dx₁ dy₁ dx₂ dy₂ dx₃ dy₃ : α) :
    (Continues b₁ b) → Continues b₁ (b.curveBy dx₁ dy₁ dx₂ dy₂ dx₃ dy₃)

omit [Scalar α] in
theorem drawn_suffix_close (b : PathBuilder α) : b.drawn <:+ b.close.drawn := by
  simp only [close]
  split
  case isTrue  => exact List.suffix_cons _ _
  case isFalse => exact List.suffix_rfl

omit [Scalar α] in
theorem drawn_suffix_beginDrawing (b : PathBuilder α) : b.drawn <:+ b.beginDrawing.drawn := by
  simp only [beginDrawing]
  split
  case isTrue  => exact List.suffix_rfl
  case isFalse => exact List.suffix_cons _ _

namespace Continues

theorem trans {b₃ : PathBuilder α} (c₁ : Continues b₁ b₂) (c₂ : Continues b₂ b₃) :
    Continues b₁ b₃ := by
  induction c₂ with
  | refl                   => exact c₁
  | close _ ih             => exact ih.close
  | moveBy _ _ _ ih        => exact ih.moveBy _ _
  | lineBy _ _ _ ih        => exact ih.lineBy _ _
  | curveBy _ _ _ _ _ _ _ ih => exact ih.curveBy _ _ _ _ _ _

theorem wellFormed (c : Continues b₁ b₂) (h : b₁.WellFormed) : b₂.WellFormed := by
  induction c with
  | refl                   => exact h
  | close _ ih             => exact ih.close
  | moveBy _ _ _ ih        => exact ih.moveBy _ _
  | lineBy _ _ _ ih        => exact ih.lineBy _ _
  | curveBy _ _ _ _ _ _ _ ih => exact ih.curveBy _ _ _ _ _ _

theorem drawn_suffix (c : Continues b₁ b₂) : b₁.drawn <:+ b₂.drawn := by
  induction c with
  | refl => exact List.suffix_rfl
  | close _ ih => exact ih.trans (drawn_suffix_close _)
  | moveBy _ _ _ ih => exact (ih.trans (drawn_suffix_close _)).trans (List.suffix_cons _ _)
  | lineBy _ _ _ ih | curveBy _ _ _ _ _ _ _ ih =>
    exact (ih.trans (drawn_suffix_beginDrawing _)).trans (List.suffix_cons _ _)

-- The operations of an outline that is finished later begin with those that are there now.
theorem drawn_prefix_finish (c : Continues b₁ b₂) : b₁.drawn.reverse <+: b₂.finish.ops :=
  List.reverse_prefix.mpr (c.drawn_suffix.trans (drawn_suffix_close _))

end Continues

omit [Scalar α] in
theorem finish_ops (b : PathBuilder α) :
    b.finish.ops = b.drawn.reverse ++ if b.isOpen then [.close] else [] := by
  simp only [finish, close]
  split <;> simp

omit [Scalar α] in
theorem finish_close (b : PathBuilder α) : b.close.finish = b.finish := by
  have hc : b.close.close = b.close := by rw [close, isOpen_close]; rfl
  simp only [finish, hc]

end PdfGraphics.PathBuilder
