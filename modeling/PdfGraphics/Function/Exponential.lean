import PdfGraphics.Function.Dict
/-!
Exponential functions of one input: each output goes from one coefficient to another as `x ^ n` goes
from 0 to 1.
-/

namespace PdfGraphics.Function

variable {α : Type} [AnalyticScalar α]

structure Exponential (α : Type) where
  domain : Span α
  range : Option (List (Span α))
  -- For each output its values at 0 and at 1.
  coefficients : List (α × α)
  exponent : α

-- Brings outputs into the range, if there is one.
def clipTo {α : Type} [Scalar α] (range : Option (List (Span α))) (outputs : List α) : List α :=
  range.elim outputs fun spans => List.zipWith Span.clip spans outputs

-- The only interval of a domain with a single input.
def onlyInput {α : Type} (domain : List (Span α)) (m : Malformation) : Except EvalError (Span α) :=
  match domain with
  | [d] => .ok d
  | _ => fault m

namespace Exponential

def evaluate (e : Exponential α) (x : α) : List α :=
  let t := AnalyticScalar.pow (e.domain.clip x) e.exponent
  clipTo e.range (e.coefficients.map fun (c₀, c₁) => c₀ + t * (c₁ - c₀))

def ofEntries (entries : FunctionDict.Entries α) (domain : List (Span α))
    (range : Option (List (Span α))) : Except EvalError (Exponential α) := do
  let c₀ := entries.c₀.getD [Scalar.zero]
  let c₁ := entries.c₁.getD [Scalar.one]
  let exponent ← need entries.exponent (.missingKey .exponent)
  let domain ← onlyInput domain .exponentialInputs
  refuse (c₀.length != c₁.length) (.coefficientCounts c₀.length c₁.length)
  if let some spans := range then
    refuse (spans.length != c₀.length) (.exponentialRange spans.length c₀.length)
  -- A power of a negative number is real only for an integral exponent, and one of zero is finite
  -- only for an exponent that is not negative.
  refuse (!AnalyticScalar.isIntegral exponent && domain.lo < Scalar.zero) .fractionalExponent
  let holdsZero : Bool := domain.lo ≤ Scalar.zero && Scalar.zero ≤ domain.hi
  refuse (exponent < Scalar.zero && holdsZero) .negativeExponent
  return { domain, range, coefficients := c₀.zip c₁, exponent }

end Exponential

end PdfGraphics.Function
