import PdfGraphics.Geometry.BoundingBox
/-!
Cubic Bézier curves and the boxes that hold them.
-/

namespace PdfGraphics

structure CubicBezier (α : Type) where
  start : Point α
  control₁ : Point α
  control₂ : Point α
  finish : Point α

namespace CubicBezier

section

variable {α : Type} [Scalar α]

-- The point at parameter `t`, by the Bernstein polynomials.
def basis (c : CubicBezier α) (t : α) : Point α :=
  let t2 := t * t
  let t3 := t2 * t
  let mt := Scalar.one - t
  let mt2 := mt * mt
  let mt3 := mt2 * mt
  c.start * mt3 + (Scalar.three : α) * c.control₁ * mt2 * t
    + (Scalar.three : α) * c.control₂ * mt * t2 + c.finish * t3

end

variable {α : Type} [AnalyticScalar α]

def inInterior (t : α) : Bool :=
  Scalar.zero < t && t < Scalar.one

-- The parameters strictly between 0 and 1 at which the coordinate with control values `p₀`, `p₁`,
-- `p₂`, `p₃` may turn: the roots of its derivative. A leading coefficient below `epsilon` is
-- dropped.
def extrema (p₀ p₁ p₂ p₃ : α) : List α :=
  let a := -p₀ + Scalar.three * p₁ - Scalar.three * p₂ + p₃
  let b := Scalar.two * (p₀ - Scalar.two * p₁ + p₂)
  let c := p₁ - p₀
  if Scalar.abs a < AnalyticScalar.epsilon then
    if Scalar.abs b < AnalyticScalar.epsilon then [] else [-c / b].filter inInterior
  else
    let discriminant := b * b - Scalar.four * a * c
    if discriminant < Scalar.zero then
      []
    else
      let root := AnalyticScalar.sqrt discriminant
      [(-b + root) / (Scalar.two * a), (-b - root) / (Scalar.two * a)].filter inInterior

-- The box of the two ends and of every point where a coordinate turns.
def boundingBox (c : CubicBezier α) : BoundingBox α :=
  let turns := extrema c.start.x c.control₁.x c.control₂.x c.finish.x
    ++ extrema c.start.y c.control₁.y c.control₂.y c.finish.y
  .ofPoints (c.start :: c.finish :: turns.map c.basis)

end CubicBezier

end PdfGraphics
