import PdfGraphics.Function.Exponential
import PdfGraphics.Function.Sampled
/-!
Functions of all three types.

A stitching function has a function of its own for each piece of its domain. The pieces meet at
bounds; an input on a bound belongs to the piece that begins there.
-/

namespace PdfGraphics

mutual

inductive Function (α : Type)
  | sampled (table : Function.Sampled α)
  | exponential (law : Function.Exponential α)
  | stitched (domain : Span α) (range : Option (List (Span α))) (pieces : Pieces α)

-- The pieces of a stitching function, with the inputs that their ends have in their functions.
inductive Pieces (α : Type)
  | last (encode : α × α) (f : Function α)
  | before (encode : α × α) (f : Function α) (bound : α) (rest : Pieces α)

end

namespace Pieces

-- Lines up pieces behind a first one, each with the bound before it.
def chain {α : Type} (encode : α × α) (f : Function α) :
    List (α × (α × α) × Function α) → Pieces α
  | [] => last encode f
  | (bound, encode', f') :: rest => before encode f bound (chain encode' f' rest)

def first {α : Type} : Pieces α → Function α
  | last _ f | before _ f .. => f

end Pieces

namespace Function

variable {α : Type}

def inputCount : Function α → Nat
  | sampled table => table.axes.length
  | exponential _ | stitched .. => 1

mutual

def outputCount : Function α → Nat
  | sampled table => table.channels.length
  | exponential law => law.coefficients.length
  | stitched _ _ pieces => piecesOutputCount pieces

def piecesOutputCount : Pieces α → Nat
  | .last _ f | .before _ f .. => outputCount f

end

variable [AnalyticScalar α]

mutual

def evaluate : Function α → List α → Except EvalError (List α)
  | sampled table, inputs =>
    if inputs.length = table.axes.length then
      table.evaluate inputs
    else
      .error (.inputArity table.axes.length inputs.length)
  | exponential law, inputs =>
    match inputs with
    | [x] => .ok (law.evaluate x)
    | _ => .error (.inputArity 1 inputs.length)
  | stitched domain range pieces, inputs =>
    match inputs with
    | [x] => (evaluatePieces (domain.clip x) domain.lo domain.hi pieces).map (clipTo range)
    | _ => .error (.inputArity 1 inputs.length)

-- Evaluates the piece that an input belongs to, of pieces that reach from `lo` to `hi`.
def evaluatePieces (x lo hi : α) : Pieces α → Except EvalError (List α)
  | .last encode f => evaluate f [interpolate x lo hi encode.1 encode.2]
  | .before encode f bound rest =>
    if bound ≤ x then
      evaluatePieces x bound hi rest
    else
      evaluate f [interpolate x lo bound encode.1 encode.2]

end

/-! Reading a function from its dictionary. -/

inductive Kind
  | sampled
  | exponential
  | stitching
deriving DecidableEq

def Kind.ofType (type : Int) : Except EvalError Kind :=
  match type with
  | 0 => .ok sampled
  | 2 => .ok exponential
  | 3 => .ok stitching
  | _ => .error (.unsupportedType type)

-- Whether each number is greater than the one before it.
def isIncreasing {α : Type} [Scalar α] : List α → Bool
  | a :: b :: rest => a < b && isIncreasing (b :: rest)
  | _ => true

-- Stitches functions that were read.
def stitch (entries : FunctionDict.Entries α) (domain : Span α) (range : Option (List (Span α)))
    (functions : List (Function α)) : Except EvalError (Function α) := do
  let bounds ← need entries.bounds (.missingKey .bounds)
  let encode ← need entries.encode (.missingKey .encode)
  let k := functions.length
  match functions, pairs encode with
  | [], _ => fault .noFunctions
  | first :: others, encodes =>
    refuse (bounds.length != k - 1) (.boundsCount k bounds.length)
    refuse (encode.length != 2 * k) (.stitchedEncodeCount k encode.length)
    refuse (functions.any fun f => f.inputCount != 1) .stitchedInputs
    refuse (functions.any fun f => f.outputCount != first.outputCount) .stitchedOutputs
    if let some spans := range then
      refuse (spans.length != first.outputCount) (.stitchedRange spans.length first.outputCount)
    refuse (!isIncreasing bounds) .boundsOrder
    refuse (bounds.any fun b => !(domain.lo ≤ b && b ≤ domain.hi)) .boundsOutside
    match encodes with
    | [] => fault (.stitchedEncodeCount k encode.length)
    | encode :: encodes =>
      return stitched domain range (.chain encode first (bounds.zip (encodes.zip others)))

mutual

def ofDict : FunctionDict α → Except EvalError (Function α)
  | ⟨entries, functions⟩ => do
    let kind ← Kind.ofType (← need entries.functionType (.missingKey .functionType))
    let domain ← intervals .domain (← need entries.domain (.missingKey .domain))
    let range ← entries.range.mapM (intervals .range)
    match kind with
    | .sampled => return sampled (← Sampled.ofEntries entries domain range)
    | .exponential => return exponential (← Exponential.ofEntries entries domain range)
    | .stitching =>
      let domain ← onlyInput domain .stitchingInputs
      match functions with
      | none => throw (.missingKey .functions)
      | some dicts => stitch entries domain range (← ofDicts dicts)

def ofDicts : List (FunctionDict α) → Except EvalError (List (Function α))
  | [] => .ok []
  | dict :: dicts => do return (← ofDict dict) :: (← ofDicts dicts)

end

end Function

end PdfGraphics
