import PdfGraphics.Geometry.Outline
/-!
Building an outline from relative moves, lines and curves.

A subpath is opened by its first line or curve and closed by the next move or at the end, so no
subpath is left open and none is closed twice.
-/

namespace PdfGraphics

structure PathBuilder (α : Type) where
  -- What was drawn so far, the newest operation first.
  drawn : List (PathOp α) := []
  pen : Point α
  isOpen : Bool := false
deriving DecidableEq

namespace PathBuilder

variable {α : Type} [Scalar α]

def start : PathBuilder α := { pen := .origin }

def close (b : PathBuilder α) : PathBuilder α :=
  if b.isOpen then { b with drawn := .close :: b.drawn, isOpen := false } else b

def finish (b : PathBuilder α) : Outline α :=
  ⟨b.close.drawn.reverse⟩

def moveBy (b : PathBuilder α) (dx dy : α) : PathBuilder α :=
  let pen := b.pen.translate dx dy
  { b.close with drawn := .moveTo pen :: b.close.drawn, pen }

def afterMove (b : PathBuilder α) : Bool :=
  b.drawn.head?.any PathOp.isMove

-- Something drawn where no move was made starts a subpath at the pen.
def beginDrawing (b : PathBuilder α) : PathBuilder α :=
  if b.isOpen || b.afterMove then
    { b with isOpen := true }
  else
    { b with drawn := .moveTo b.pen :: b.drawn, isOpen := true }

def lineBy (b : PathBuilder α) (dx dy : α) : PathBuilder α :=
  let pen := b.pen.translate dx dy
  { b.beginDrawing with drawn := .lineTo pen :: b.beginDrawing.drawn, pen }

-- Draws a curve, each of its three points given from the one before.
def curveBy (b : PathBuilder α) (dx₁ dy₁ dx₂ dy₂ dx₃ dy₃ : α) : PathBuilder α :=
  let c₁ := b.pen.translate dx₁ dy₁
  let c₂ := c₁.translate dx₂ dy₂
  let pen := c₂.translate dx₃ dy₃
  { b.beginDrawing with drawn := .curveTo c₁ c₂ pen :: b.beginDrawing.drawn, pen }

end PathBuilder

end PdfGraphics
