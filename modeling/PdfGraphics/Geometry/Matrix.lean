import PdfGraphics.Geometry.Point
/-!
Affine maps of the plane, as the six coefficients `[a b c d e f]` of a page description.
-/

namespace PdfGraphics

-- The map `(x, y) ↦ (a x + c y + e, b x + d y + f)`.
structure Matrix (α : Type) where
  a : α
  b : α
  c : α
  d : α
  e : α
  f : α
deriving DecidableEq

namespace Matrix

variable {α : Type} [Scalar α]

def scaling (x y : α) : Matrix α := ⟨x, Scalar.zero, Scalar.zero, y, Scalar.zero, Scalar.zero⟩

def identity : Matrix α := scaling Scalar.one Scalar.one

def shift (x y : α) : Matrix α := ⟨Scalar.one, Scalar.zero, Scalar.zero, Scalar.one, x, y⟩

-- The left factor acts first: points are rows of a three-by-three matrix.
instance : Mul (Matrix α) where
  mul m n := {
    a := m.a * n.a + m.b * n.c
    b := m.a * n.b + m.b * n.d
    c := m.c * n.a + m.d * n.c
    d := m.c * n.b + m.d * n.d
    e := m.e * n.a + m.f * n.c + n.e
    f := m.e * n.b + m.f * n.d + n.f
  }

def apply (m : Matrix α) (p : Point α) : Point α :=
  ⟨m.a * p.x + m.c * p.y + m.e, m.b * p.x + m.d * p.y + m.f⟩

def product (ms : List (Matrix α)) : Matrix α :=
  ms.foldl (· * ·) identity

end Matrix

end PdfGraphics
