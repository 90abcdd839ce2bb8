import PdfGraphics.Scalar.Binary32
/-!
The numbers that geometry and functions compute with.

A formula over `Scalar` or `AnalyticScalar` states its operations and their order once. The programs
run it on `Float32`; a theorem may read it over an exact ordered field.
-/

namespace PdfGraphics

-- Field operations, comparisons, and the passage from and to the natural numbers.
class Scalar (α : Type) extends Add α, Sub α, Mul α, Div α, Neg α, LT α, LE α, BEq α where
  ofNat : Nat → α
  -- The integer part of a number that is not negative.
  toNat : α → Nat
  decLt : DecidableLT α
  decLe : DecidableLE α

instance Scalar.decidableLT {α : Type} [Scalar α] (x y : α) : Decidable (x < y) := Scalar.decLt x y

instance Scalar.decidableLE {α : Type} [Scalar α] (x y : α) : Decidable (x ≤ y) := Scalar.decLe x y

-- Adds the operations that leave the rational numbers.
class AnalyticScalar (α : Type) extends Scalar α where
  sqrt : α → α
  pow : α → α → α
  -- A magnitude below which a coefficient counts as zero.
  epsilon : α
  isIntegral : α → Bool

namespace Scalar

variable {α : Type} [Scalar α]

def zero : α := ofNat 0

def one : α := ofNat 1

def two : α := ofNat 2

def three : α := ofNat 3

def four : α := ofNat 4

def abs (x : α) : α :=
  if x < zero then -x else x

-- Only not-a-number differs from itself.
def isNumber (x : α) : Bool :=
  x == x

-- Brings a number into an interval; what is no number becomes the lower end.
def clamp (x lo hi : α) : α :=
  if lo < x then (if x < hi then x else hi) else lo

end Scalar

instance : Scalar Float32 where
  ofNat := Binary32.ofNat
  toNat x := x.toUInt64.toNat
  decLt := inferInstance
  decLe := inferInstance

instance : AnalyticScalar Float32 where
  sqrt := Float32.sqrt
  pow := Binary32.pow
  epsilon := Binary32.epsilon
  isIntegral := Binary32.isIntegral

end PdfGraphics
