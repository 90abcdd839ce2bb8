import PdfGraphics.Proofs.Charstring.Steps
import PdfGraphics.Proofs.Geometry.Continuation
/-!
What a run draws.

Each token only draws on from where the path was. So the outline is well formed wherever a run
stops, and what was drawn up to some token is the beginning of what is drawn in the end.
-/

namespace PdfGraphics.Charstring

open PathBuilder

namespace Segment

variable {α : Type} [Scalar α] {b₁ b₂ : PathBuilder α}

theorem continues_draw (c : Continues b₁ b₂) (s : Segment α) : Continues b₁ (s.draw b₂) := by
  cases s with
  | line  => exact c.lineBy _ _
  | curve => exact c.curveBy _ _ _ _ _ _

theorem continues_drawAll (c : Continues b₁ b₂) (segments : List (Segment α)) :
    Continues b₁ (drawAll b₂ segments) := by
  induction segments generalizing b₂ with
  | nil            => exact c
  | cons s rest ih => exact ih (continues_draw c s)

end Segment

namespace State

variable {nominal : Float32} {s s' : State}

theorem continues_move {op : MoveOperator} (h : s.move nominal op = .ok s') :
    Continues s.path s'.path := by
  simp only [move] at h
  split at h <;> split at h <;> simp at h <;> exact h ▸ .moveBy _ _ .refl

theorem continues_draw {op : PathOperator} (h : s.draw op = .ok s') :
    Continues s.path s'.path := by
  simp only [draw, PathOperator.draw?] at h
  split at h
  case h_2 => simp at h
  case h_1 path hd =>
    split at hd <;> simp at hd
    cases h
    exact hd ▸ Segment.continues_drawAll .refl _

theorem continues_compute {op : Arithmetic} (h : s.compute op = .ok s') :
    Continues s.path s'.path := by
  rw [compute_frame h]
  exact .refl

theorem continues_finish : Continues s.path (s.finish nominal).1.path := by
  simp only [finish]
  split
  case h_1 => exact .close .refl
  case h_2 => exact .refl

theorem Change.continues (c : Change nominal s s') : Continues s.path s'.path := by
  cases c with
  | same | push _ _ | pop _ | declareStems => exact .refl
  | move h    => exact continues_move h
  | draw h    => exact continues_draw h
  | compute h => exact continues_compute h
  | finish    => exact continues_finish

end State

namespace Machine

variable {ctx : Context} {n : Nat} {m m' : Machine}

theorem continues_step : Continues m.state.path (step ctx m).machine.state.path :=
  change_step.continues

theorem Steps.continues (s : Steps ctx n m m') : Continues m.state.path m'.state.path :=
  s.preserves (P := (Continues m.state.path ·.state.path)) (fun _ h => h.trans continues_step) .refl

theorem continues_run : Continues m.state.path (run ctx m).1.state.path :=
  run_preserves (P := (Continues m.state.path ·.state.path)) (fun _ h => h.trans continues_step) .refl

end Machine

-- Whatever stops a run, its outline has no subpath that is left open or is closed twice.
theorem wellFormed_run (ctx : Context) (code : List UInt8) : (run ctx code).1.outline.WellFormed :=
  (Machine.continues_run.wellFormed .start).finish

end PdfGraphics.Charstring
