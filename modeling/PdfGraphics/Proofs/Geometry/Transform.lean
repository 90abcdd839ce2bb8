import PdfGraphics.Geometry.Outline
import PdfGraphics.Proofs.Scalar.Rational
/-!
Matrices as maps, in exact numbers.

A product maps points as its factors do one after the other, the left one first. No two matrices map
all points alike, so brackets in a product make no difference. An outline can be moved by a product
at once or by its factors in turn.
-/

namespace PdfGraphics

namespace Matrix

variable (m n : Matrix ℚ) (p : Point ℚ) (ms : List (Matrix ℚ))

theorem apply_mul : (m * n).apply p = n.apply (m.apply p) := by
  show Point.mk ((m.a * n.a + m.b * n.c) * p.x + (m.c * n.a + m.d * n.c) * p.y
      + (m.e * n.a + m.f * n.c + n.e))
    ((m.a * n.b + m.b * n.d) * p.x + (m.c * n.b + m.d * n.d) * p.y
      + (m.e * n.b + m.f * n.d + n.f)) = _
  rw [apply, apply]
  congr 1 <;> ring

-- First to the right, then away from the axes.
example : (shift 10 0 * scaling 2 3 : Matrix ℚ).apply ⟨1, 1⟩ = ⟨22, 3⟩ := by decide +kernel

theorem apply_identity : identity.apply p = p := by
  simp [apply, identity, scaling]

-- The coefficients can be read off where a matrix takes the origin and the ends of the unit
-- vectors.
theorem apply_injective : Function.Injective (apply : Matrix ℚ → Point ℚ → Point ℚ) := by
  intro m n h
  have h₀ := congrFun h ⟨0, 0⟩
  have h₁ := congrFun h ⟨1, 0⟩
  have h₂ := congrFun h ⟨0, 1⟩
  simp only [apply, mul_zero, mul_one, zero_add, add_zero, Point.mk.injEq] at h₀ h₁ h₂
  obtain ⟨a, b, c, d, e, f⟩ := m
  simp_all

instance : Monoid (Matrix ℚ) where
  one := identity
  mul_assoc l m n := apply_injective (funext fun p => by simp only [apply_mul])
  one_mul m := apply_injective (funext fun p => (apply_mul ..).trans (congrArg _ (apply_identity p)))
  mul_one m := apply_injective (funext fun p => (apply_mul ..).trans (apply_identity _))

theorem product_eq_prod : product ms = ms.prod :=
  List.prod_eq_foldl.symm

-- A product that is put in brackets in some way, and may have brackets around no factor.
inductive Bracketed
  | none
  | factor (m : Matrix ℚ)
  | times (left right : Bracketed)

namespace Bracketed

def factors : Bracketed → List (Matrix ℚ)
  | none             => []
  | factor m         => [m]
  | times left right => left.factors ++ right.factors

-- What is in brackets is multiplied first.
def value : Bracketed → Matrix ℚ
  | none             => identity
  | factor m         => m
  | times left right => left.value * right.value

theorem value_eq (b : Bracketed) : b.value = product b.factors := by
  rw [product_eq_prod]
  induction b with
  | none             => rfl
  | factor m         => exact List.prod_singleton.symm
  | times _ _ hl hr  => rw [value, hl, hr, factors, List.prod_append]

end Bracketed

end Matrix

namespace PathOp

inductive Kind
  | move
  | line
  | curve
  | close
deriving DecidableEq

def kind {α : Type} : PathOp α → Kind
  | moveTo _  => .move
  | lineTo _  => .line
  | curveTo .. => .curve
  | close     => .close

theorem kind_transform {α : Type} [Scalar α] (m : Matrix α) (op : PathOp α) :
    (op.transform m).kind = op.kind := by
  cases op <;> rfl

theorem transform_mul (m n : Matrix ℚ) (op : PathOp ℚ) :
    op.transform (m * n) = (op.transform m).transform n := by
  cases op <;> simp only [transform, Matrix.apply_mul]

theorem transform_identity (op : PathOp ℚ) : op.transform .identity = op := by
  cases op <;> simp only [transform, Matrix.apply_identity]

end PathOp

namespace Outline

variable (m n : Matrix ℚ) (o other : Outline ℚ) (ms : List (Matrix ℚ))

theorem kinds_transform {α : Type} [Scalar α] (m : Matrix α) (o : Outline α) :
    (o.transform m).ops.map PathOp.kind = o.ops.map PathOp.kind := by
  rw [transform, List.map_map]
  exact List.map_congr_left fun op _ => PathOp.kind_transform m op

theorem transform_mul : o.transform (m * n) = (o.transform m).transform n := by
  simp [transform, PathOp.transform_mul]

theorem transform_identity : o.transform .identity = o := by
  rw [transform, funext PathOp.transform_identity]
  exact congrArg mk (List.map_id _)

theorem transform_foldl : o.transform (ms.foldl (· * ·) m) = ms.foldl transform (o.transform m) :=
  (List.foldl_hom o.transform fun m n => (o.transform_mul m n).symm).symm

theorem transform_append :
    (o.append other m).transform n = (o.transform n).append other (m * n) := by
  rw [append, append, transform_mul]
  exact congrArg mk List.map_append

-- Moving an outline by a product is moving it by the factors in turn, whatever brackets the product
-- has. Appending moves a copy, and all that was appended moves on by a product. No move adds,
-- drops or exchanges operations.
theorem transform_product (o other : Outline ℚ) (ms : List (Matrix ℚ)) (m n : Matrix ℚ) :
    o.transform (.product ms) = ms.foldl transform o ∧
    (∀ b : Matrix.Bracketed, b.value = .product b.factors) ∧
    o.append other m = ⟨o.ops ++ (other.transform m).ops⟩ ∧
    (o.append other m).transform n = (o.transform n).append other (m * n) ∧
    (o.transform m).ops.map PathOp.kind = o.ops.map PathOp.kind := by
  refine ⟨?_, Matrix.Bracketed.value_eq, rfl, o.transform_append m n other, o.kinds_transform m⟩
  rw [Matrix.product, transform_foldl, transform_identity]

end Outline

end PdfGraphics
