import PdfGraphics.Scalar.Basic
/-!
Points of the plane, which also serve as displacements.
-/

namespace PdfGraphics

structure Point (α : Type) where
  x : α
  y : α
deriving DecidableEq

namespace Point

variable {α : Type} [Scalar α]

def origin : Point α := ⟨Scalar.zero, Scalar.zero⟩

def translate (p : Point α) (dx dy : α) : Point α :=
  ⟨p.x + dx, p.y + dy⟩

instance : Add (Point α) := ⟨fun p q => ⟨p.x + q.x, p.y + q.y⟩⟩

instance : Sub (Point α) := ⟨fun p q => ⟨p.x - q.x, p.y - q.y⟩⟩

instance : HMul (Point α) α (Point α) := ⟨fun p k => ⟨p.x * k, p.y * k⟩⟩

instance : HMul α (Point α) (Point α) := ⟨fun k p => ⟨k * p.x, k * p.y⟩⟩

instance : BEq (Point α) := ⟨fun p q => p.x == q.x && p.y == q.y⟩

end Point

end PdfGraphics
