import PdfGraphics.Text.Quoted
import PdfGraphics.Text.Record
/-!
What can be wrong with a function's dictionary, or with the inputs it is given.
-/

namespace PdfGraphics

-- The entries that some function cannot do without.
inductive FunctionKey
  | functionType
  | domain
  | range
  | size
  | bitsPerSample
  | samples
  | exponent
  | functions
  | bounds
  | encode
deriving DecidableEq

def FunctionKey.name : FunctionKey → String
  | functionType => "FunctionType"
  | domain => "Domain"
  | range => "Range"
  | size => "Size"
  | bitsPerSample => "BitsPerSample"
  | samples => "Samples"
  | exponent => "N"
  | functions => "Functions"
  | bounds => "Bounds"
  | encode => "Encode"

-- Entries that do not fit together, or not the type of the function.
inductive Malformation
  | notPairs (key : FunctionKey) (found : Nat)
  | invertedInterval (key : FunctionKey)
  | bitsPerSample (found : Nat)
  | order (found : Nat)
  | sizeCount (found inputs : Nat)
  | sizeZero
  | encodeCount (found inputs : Nat)
  | decodeCount (found outputs : Nat)
  | tableTooLarge
  | samplesMissing (available required : Nat)
  | exponentialInputs
  | coefficientCounts (c₀ c₁ : Nat)
  | exponentialRange (range c₀ : Nat)
  | fractionalExponent
  | negativeExponent
  | stitchingInputs
  | noFunctions
  | boundsCount (functions found : Nat)
  | stitchedEncodeCount (functions found : Nat)
  | stitchedInputs
  | stitchedOutputs
  | stitchedRange (range outputs : Nat)
  | boundsOrder
  | boundsOutside
deriving DecidableEq

def Malformation.message : Malformation → String
  | notPairs key found => s!"{key.name} must hold a non-empty list of pairs, found {found} values"
  | invertedInterval key => s!"{key.name} has an interval whose minimum exceeds its maximum"
  | bitsPerSample found => s!"unsupported BitsPerSample {found}"
  | order found => s!"Order must be 1 or 3, found {found}"
  | sizeCount found inputs => s!"Size has {found} entries for {inputs} inputs"
  | sizeZero => "Size entries must be positive"
  | encodeCount found inputs => s!"Encode has {found} values for {inputs} inputs"
  | decodeCount found outputs => s!"Decode has {found} values for {outputs} outputs"
  | tableTooLarge => "sample table is too large"
  | samplesMissing available required =>
    s!"sample data holds {available} samples, but {required} are required"
  | exponentialInputs => "exponential interpolation functions take exactly one input"
  | coefficientCounts c₀ c₁ => s!"C0 has {c₀} values but C1 has {c₁}"
  | exponentialRange range c₀ => s!"Range describes {range} outputs but C0 has {c₀} values"
  | fractionalExponent => "non-integral N requires a non-negative Domain"
  | negativeExponent => "negative N requires 0 outside of Domain"
  | stitchingInputs => "stitching functions take exactly one input"
  | noFunctions => "Functions must not be empty"
  | boundsCount functions found =>
    s!"expected {functions - 1} Bounds for {functions} functions, found {found}"
  | stitchedEncodeCount functions found =>
    s!"expected {2 * functions} Encode values for {functions} functions, found {found}"
  | stitchedInputs => "every stitched function must take exactly one input"
  | stitchedOutputs => "stitched functions disagree on their number of outputs"
  | stitchedRange range outputs =>
    s!"Range describes {range} outputs but the stitched functions produce {outputs}"
  | boundsOrder => "Bounds must be strictly increasing"
  | boundsOutside => "Bounds must lie within Domain"

inductive EvalError
  | malformed (m : Malformation)
  | missingKey (key : FunctionKey)
  | unsupportedType (type : Int)
  -- The function was given the wrong number of inputs.
  | inputArity (expected found : Nat)
  -- No answer is given at all: the program stops where it looks for what a table does not have.
  | outOfBounds (length index : Nat)
deriving DecidableEq

namespace EvalError

def label : EvalError → String
  | malformed _ => "MalformedFunction"
  | missingKey _ => "MissingRequiredKey"
  | unsupportedType _ => "UnsupportedFunctionType"
  | inputArity .. => "InputArity"
  | outOfBounds .. => "panic"

-- The label, with what is known of the fault.
def message (e : EvalError) : String :=
  match e with
  | malformed m => Text.tagged e.label (Text.quoted m.message)
  | missingKey key => Text.record e.label [("key", Text.quoted key.name)]
  | unsupportedType type => Text.tagged e.label (toString type)
  | inputArity expected found =>
    Text.record e.label [("expected", toString expected), ("found", toString found)]
  | outOfBounds length index =>
    s!"index out of bounds: the len is {length} but the index is {index}"

end EvalError

end PdfGraphics
