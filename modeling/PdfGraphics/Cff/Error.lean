import PdfGraphics.Text.Record
/-!
What can be wrong with a font, or with one of its charstrings.
-/

namespace PdfGraphics

inductive DecodeError
  | unexpectedEof
  | malformedHeader
  | malformedIndex
  | malformedDict
  -- An operand byte that is not legal where it stands.
  | invalidOperandEncoding (byte : UInt8)
  | unsupportedCharstringType (type : Nat)
  -- The font is keyed by CID.
  | unsupportedFontKind
  | missingCharStrings
  | invalidCharset (format : UInt8)
  | invalidEncoding (format : UInt8)
  | invalidStringId (sid : UInt16)
  | unknownGlyph
  -- Operators after an escape byte have numbers from 1200 on.
  | unsupportedCharstringOperator (operator : Nat)
  | recursionLimitExceeded (depth : Nat)
  | operationLimitExceeded
  | transientArrayIndexOutOfRange (index : Int)
  | stackUnderflow
  | stackOverflow
  | invalidSubroutineIndex (index : Int)
  | unexpectedReturn
  | divisionByZero
  | invalidOperand
deriving DecidableEq

namespace DecodeError

def label : DecodeError → String
  | unexpectedEof => "UnexpectedEof"
  | malformedHeader => "MalformedHeader"
  | malformedIndex => "MalformedIndex"
  | malformedDict => "MalformedDict"
  | invalidOperandEncoding _ => "InvalidOperandEncoding"
  | unsupportedCharstringType _ => "UnsupportedCharstringType"
  | unsupportedFontKind => "UnsupportedFontKind"
  | missingCharStrings => "MissingCharStrings"
  | invalidCharset _ => "InvalidCharset"
  | invalidEncoding _ => "InvalidEncoding"
  | invalidStringId _ => "InvalidStringId"
  | unknownGlyph => "UnknownGlyph"
  | unsupportedCharstringOperator _ => "UnsupportedCharstringOperator"
  | recursionLimitExceeded _ => "RecursionLimitExceeded"
  | operationLimitExceeded => "OperationLimitExceeded"
  | transientArrayIndexOutOfRange _ => "TransientArrayIndexOutOfRange"
  | stackUnderflow => "StackUnderflow"
  | stackOverflow => "StackOverflow"
  | invalidSubroutineIndex _ => "InvalidSubroutineIndex"
  | unexpectedReturn => "UnexpectedReturn"
  | divisionByZero => "DivisionByZero"
  | invalidOperand => "InvalidOperand"

-- The label, with what is known of the fault.
def message (e : DecodeError) : String :=
  match e with
  | invalidOperandEncoding byte => Text.record e.label [("byte", toString byte)]
  | unsupportedCharstringType type => Text.tagged e.label (toString type)
  | invalidCharset format | invalidEncoding format =>
    Text.record e.label [("format", toString format)]
  | invalidStringId sid => Text.tagged e.label (toString sid)
  | unsupportedCharstringOperator operator => Text.record e.label [("operator", toString operator)]
  | recursionLimitExceeded depth => Text.record e.label [("depth", toString depth)]
  | transientArrayIndexOutOfRange index | invalidSubroutineIndex index =>
    Text.record e.label [("index", toString index)]
  | _ => e.label

end DecodeError

end PdfGraphics
