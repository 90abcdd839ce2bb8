import PdfGraphics.Geometry.Matrix
import PdfGraphics.Geometry.CubicBezier
/-!
Outlines: lists of drawing operations with absolute coordinates.
-/

namespace PdfGraphics

inductive PathOp (α : Type)
  | moveTo (p : Point α)
  | lineTo (p : Point α)
  | curveTo (control₁ control₂ finish : Point α)
  | close
deriving DecidableEq

namespace PathOp

variable {α : Type}

def isMove : PathOp α → Bool
  | moveTo _ => true
  | _ => false

def isCurve : PathOp α → Bool
  | curveTo .. => true
  | _ => false

def transform [Scalar α] (m : Matrix α) : PathOp α → PathOp α
  | moveTo p => moveTo (m.apply p)
  | lineTo p => lineTo (m.apply p)
  | curveTo c₁ c₂ p => curveTo (m.apply c₁) (m.apply c₂) (m.apply p)
  | close => close

end PathOp

structure Outline (α : Type) where
  ops : List (PathOp α) := []
deriving DecidableEq

namespace Outline

section

variable {α : Type}

def empty : Outline α := {}

def isEmpty (o : Outline α) : Bool :=
  o.ops.isEmpty

def curveCount (o : Outline α) : Nat :=
  o.ops.countP PathOp.isCurve

def transform [Scalar α] (o : Outline α) (m : Matrix α) : Outline α :=
  ⟨o.ops.map (PathOp.transform m)⟩

-- Draws another outline, moved by a matrix, after this one.
def append [Scalar α] (o other : Outline α) (m : Matrix α) : Outline α :=
  ⟨o.ops ++ (other.transform m).ops⟩

end

variable {α : Type} [AnalyticScalar α]

-- The box of the operations that follow, for a pen that stands at `pen`. A move alone adds nothing:
-- its point counts once something is drawn from it.
def extend (pen : Point α) (b : BoundingBox α) : List (PathOp α) → BoundingBox α
  | [] => b
  | .moveTo p :: rest => extend p b rest
  | .lineTo p :: rest => extend p ((b.addPoint pen).addPoint p) rest
  | .curveTo c₁ c₂ p :: rest => extend p (b.merge (CubicBezier.boundingBox ⟨pen, c₁, c₂, p⟩)) rest
  | .close :: rest => extend pen b rest

def boundingBox (o : Outline α) : BoundingBox α :=
  extend .origin .empty o.ops

end Outline

end PdfGraphics
