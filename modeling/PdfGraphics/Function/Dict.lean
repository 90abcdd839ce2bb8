import PdfGraphics.Function.Error
import PdfGraphics.Geometry.BoundingBox
import PdfGraphics.Required
/-!
The dictionary that describes a function, and the parts that all types of functions share.
-/

namespace PdfGraphics

namespace FunctionDict

-- All that a dictionary may say, apart from the functions in it.
structure Entries (α : Type) where
  functionType : Option Int := none
  domain : Option (List α) := none
  range : Option (List α) := none
  c₀ : Option (List α) := none
  c₁ : Option (List α) := none
  exponent : Option α := none
  bounds : Option (List α) := none
  encode : Option (List α) := none
  decode : Option (List α) := none
  size : Option (List Nat) := none
  bitsPerSample : Option Nat := none
  order : Option Nat := none
  samples : Option (List UInt8) := none

end FunctionDict

inductive FunctionDict (α : Type)
  | mk (entries : FunctionDict.Entries α) (functions : Option (List (FunctionDict α)))

namespace Function

variable {α : Type} [Scalar α]

-- The line through `(x₀, y₀)` and `(x₁, y₁)` at `x`; an empty interval has the value `y₀`.
def interpolate (x x₀ x₁ y₀ y₁ : α) : α :=
  if x₁ == x₀ then y₀ else y₀ + (x - x₀) * (y₁ - y₀) / (x₁ - x₀)

def fault {β : Type} (m : Malformation) : Except EvalError β :=
  .error (.malformed m)

-- Stops with a fault where a condition holds.
def refuse (condition : Bool) (m : Malformation) : Except EvalError Unit :=
  if condition then fault m else .ok ()

-- The values two by two; an odd last value is left out.
def pairs {β : Type} : List β → List (β × β)
  | a :: b :: rest => (a, b) :: pairs rest
  | _ => []

-- Reads a list of intervals, each by its two ends.
def intervals (key : FunctionKey) (values : List α) : Except EvalError (List (Span α)) := do
  refuse (values.isEmpty || values.length % 2 = 1) (.notPairs key values.length)
  refuse ((pairs values).any fun (lo, hi) => !decide (lo ≤ hi)) (.invertedInterval key)
  return (pairs values).map fun (lo, hi) => ⟨lo, hi⟩

end Function

def Span.clip {α : Type} [Scalar α] (s : Span α) (v : α) : α :=
  Scalar.clamp v s.lo s.hi

end PdfGraphics
