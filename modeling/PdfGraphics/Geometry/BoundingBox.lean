import PdfGraphics.Geometry.Point
/-!
Axis-aligned boxes, grown point by point.

Each axis holds the span of the numbers seen on it, or nothing when there were none. A coordinate
that is not a number leaves its axis as it is.
-/

namespace PdfGraphics

-- The least and the greatest of some numbers.
structure Span (α : Type) where
  lo : α
  hi : α
deriving DecidableEq

namespace Span

variable {α : Type} [Scalar α]

def join (s t : Span α) : Span α where
  lo := if t.lo < s.lo then t.lo else s.lo
  hi := if s.hi < t.hi then t.hi else s.hi

def length (s : Span α) : α :=
  s.hi - s.lo

-- The span of a single number.
def single? (v : α) : Option (Span α) :=
  if Scalar.isNumber v then some ⟨v, v⟩ else none

end Span

structure BoundingBox (α : Type) where
  x : Option (Span α) := none
  y : Option (Span α) := none
deriving DecidableEq

namespace BoundingBox

variable {α : Type} [Scalar α]

def empty : BoundingBox α := {}

def ofPoint (p : Point α) : BoundingBox α :=
  ⟨Span.single? p.x, Span.single? p.y⟩

def merge (b c : BoundingBox α) : BoundingBox α :=
  ⟨b.x.merge Span.join c.x, b.y.merge Span.join c.y⟩

def addPoint (b : BoundingBox α) (p : Point α) : BoundingBox α :=
  b.merge (ofPoint p)

def ofPoints (ps : List (Point α)) : BoundingBox α :=
  ps.foldl addPoint empty

def isEmpty (b : BoundingBox α) : Bool :=
  b.x.isNone || b.y.isNone

end BoundingBox

end PdfGraphics
