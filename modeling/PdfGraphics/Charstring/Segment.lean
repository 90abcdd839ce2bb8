import PdfGraphics.Geometry.PathBuilder
/-!
What the path operators of a charstring draw.

A path operator turns its operands, taken from the bottom of the stack, into relative lines and
curves. Operands that no segment uses are dropped; when there are fewer than the operator needs, it
draws nothing at all.
-/

namespace PdfGraphics.Charstring

-- A line or a curve, each point given from the one before.
inductive Segment (α : Type)
  | line (dx dy : α)
  | curve (dx₁ dy₁ dx₂ dy₂ dx₃ dy₃ : α)
deriving DecidableEq

namespace Segment

variable {α : Type} [Scalar α]

def draw (b : PathBuilder α) : Segment α → PathBuilder α
  | line dx dy => b.lineBy dx dy
  | curve dx₁ dy₁ dx₂ dy₂ dx₃ dy₃ => b.curveBy dx₁ dy₁ dx₂ dy₂ dx₃ dy₃

def drawAll (b : PathBuilder α) (segments : List (Segment α)) : PathBuilder α :=
  segments.foldl draw b

-- A line along one of the axes.
def alongAxis (isHorizontal : Bool) (d : α) : Segment α :=
  if isHorizontal then line d Scalar.zero else line Scalar.zero d

-- One line for each pair.
def lines : List α → List (Segment α)
  | dx :: dy :: rest => line dx dy :: lines rest
  | _ => []

-- One line for each operand, the axes in turn.
def alternatingLines (isHorizontal : Bool) : List α → List (Segment α)
  | [] => []
  | d :: rest => alongAxis isHorizontal d :: alternatingLines (!isHorizontal) rest

-- One curve for each group of six.
def curves : List α → List (Segment α)
  | dx₁ :: dy₁ :: dx₂ :: dy₂ :: dx₃ :: dy₃ :: rest => curve dx₁ dy₁ dx₂ dy₂ dx₃ dy₃ :: curves rest
  | _ => []

-- One curve for each group of four, which ends horizontally and but for `dy` begins so.
def horizontalCurves (dy : α) : List α → List (Segment α)
  | dx₁ :: dx₂ :: dy₂ :: dx₃ :: rest =>
    curve dx₁ dy dx₂ dy₂ dx₃ Scalar.zero :: horizontalCurves Scalar.zero rest
  | _ => []

-- One curve for each group of four, which ends vertically and but for `dx` begins so.
def verticalCurves (dx : α) : List α → List (Segment α)
  | dy₁ :: dx₂ :: dy₂ :: dy₃ :: rest =>
    curve dx dy₁ dx₂ dy₂ Scalar.zero dy₃ :: verticalCurves Scalar.zero rest
  | _ => []

-- A curve from one axis to the other, but for `last`, the coordinate that would be zero at its end.
def betweenAxes (isHorizontal : Bool) (d₁ d₂ d₃ d₄ last : α) : Segment α :=
  if isHorizontal then
    curve d₁ Scalar.zero d₂ d₃ last d₄
  else
    curve Scalar.zero d₁ d₂ d₃ d₄ last

-- A single operand after the last group of four is the last coordinate of its curve.
def alternatingCurves (isHorizontal : Bool) : List α → List (Segment α)
  | [d₁, d₂, d₃, d₄, last] => [betweenAxes isHorizontal d₁ d₂ d₃ d₄ last]
  | d₁ :: d₂ :: d₃ :: d₄ :: rest =>
    betweenAxes isHorizontal d₁ d₂ d₃ d₄ Scalar.zero :: alternatingCurves (!isHorizontal) rest
  | _ => []

-- Gives the first operand to `f` when their number is odd.
def withLeading (f : α → List α → List (Segment α)) (operands : List α) : List (Segment α) :=
  match operands with
  | d :: rest => if operands.length % 2 = 1 then f d rest else f Scalar.zero operands
  | [] => []

-- Curves for as many groups of six as leave two operands, then a line.
def curvesThenLine (operands : List α) : List (Segment α) :=
  let n := 6 * ((operands.length - 2) / 6)
  curves (operands.take n) ++ lines ((operands.drop n).take 2)

-- Lines for as many pairs as leave six operands, then a curve.
def linesThenCurve (operands : List α) : List (Segment α) :=
  let n := 2 * ((operands.length - 6) / 2)
  lines (operands.take n) ++ curves ((operands.drop n).take 6)

-- Two curves from twelve operands, and a flex depth that drawing does not need.
def flex (operands : List α) : List (Segment α) :=
  curves (operands.take 12)

-- Two curves whose ends and middle are level with their neighbours.
def hflex : List α → List (Segment α)
  | dx₁ :: dx₂ :: dy₂ :: dx₃ :: dx₄ :: dx₅ :: dx₆ :: _ =>
    [curve dx₁ Scalar.zero dx₂ dy₂ dx₃ Scalar.zero,
      curve dx₄ Scalar.zero dx₅ (-dy₂) dx₆ Scalar.zero]
  | _ => []

-- Two curves that end at the height at which they begin.
def hflex1 : List α → List (Segment α)
  | dx₁ :: dy₁ :: dx₂ :: dy₂ :: dx₃ :: dx₄ :: dx₅ :: dy₅ :: dx₆ :: _ =>
    [curve dx₁ dy₁ dx₂ dy₂ dx₃ Scalar.zero,
      curve dx₄ Scalar.zero dx₅ dy₅ dx₆ (-(dy₁ + dy₂ + dy₅))]
  | _ => []

-- Two curves that end where they begin on one axis. The last operand goes along the axis on which
-- the other points move farther, and the end returns on the other one.
def flex1 : List α → List (Segment α)
  | dx₁ :: dy₁ :: dx₂ :: dy₂ :: dx₃ :: dy₃ :: dx₄ :: dy₄ :: dx₅ :: dy₅ :: d₆ :: _ =>
    let dx := dx₁ + dx₂ + dx₃ + dx₄ + dx₅
    let dy := dy₁ + dy₂ + dy₃ + dy₄ + dy₅
    let first := curve dx₁ dy₁ dx₂ dy₂ dx₃ dy₃
    if Scalar.abs dy < Scalar.abs dx then
      [first, curve dx₄ dy₄ dx₅ dy₅ d₆ (-dy)]
    else
      [first, curve dx₄ dy₄ dx₅ dy₅ (-dx) d₆]
  | _ => []

end Segment

-- The operators that draw and leave the stack empty.
inductive PathOperator
  | rlineto
  | hlineto
  | vlineto
  | rrcurveto
  | rcurveline
  | rlinecurve
  | vvcurveto
  | hhcurveto
  | vhcurveto
  | hvcurveto
  | hflex
  | flex
  | hflex1
  | flex1
deriving DecidableEq

namespace PathOperator

-- The fewest operands that an operator can do with.
def minimum : PathOperator → Nat
  | hlineto | vlineto => 1
  | rlineto | rcurveline => 2
  | vvcurveto | hhcurveto | vhcurveto | hvcurveto => 4
  | rrcurveto | rlinecurve => 6
  | hflex => 7
  | hflex1 => 9
  | flex1 => 11
  | flex => 13

variable {α : Type} [Scalar α]

def segments (op : PathOperator) (operands : List α) : List (Segment α) :=
  match op with
  | rlineto => Segment.lines operands
  | hlineto => Segment.alternatingLines true operands
  | vlineto => Segment.alternatingLines false operands
  | rrcurveto => Segment.curves operands
  | rcurveline => Segment.curvesThenLine operands
  | rlinecurve => Segment.linesThenCurve operands
  | vvcurveto => Segment.withLeading Segment.verticalCurves operands
  | hhcurveto => Segment.withLeading Segment.horizontalCurves operands
  | vhcurveto => Segment.alternatingCurves false operands
  | hvcurveto => Segment.alternatingCurves true operands
  | hflex => Segment.hflex operands
  | flex => Segment.flex operands
  | hflex1 => Segment.hflex1 operands
  | flex1 => Segment.flex1 operands

def draw? (op : PathOperator) (operands : List α) (b : PathBuilder α) : Option (PathBuilder α) :=
  if op.minimum ≤ operands.length then some (Segment.drawAll b (op.segments operands)) else none

end PathOperator

end PdfGraphics.Charstring
