import PdfGraphics.Function.Basic
import PdfGraphics.Main
import PdfGraphics.Proofs.Charstring.Change
import PdfGraphics.Proofs.Charstring.Bounded
import PdfGraphics.Proofs.Geometry.Continuation
import PdfGraphics.Proofs.Charstring.Path
import PdfGraphics.Proofs.Font.History
import PdfGraphics.Proofs.Font.Outline
import PdfGraphics.Proofs.Charstring.Limits
import PdfGraphics.Proofs.Cff.Front
import PdfGraphics.Proofs.Charstring.Routine
import PdfGraphics.Proofs.Charstring.Nesting
import PdfGraphics.Proofs.Charstring.Portable
import PdfGraphics.Proofs.Charstring.Agreement
import PdfGraphics.Proofs.Charstring.Inlining
import PdfGraphics.Proofs.Bytes.Number
import PdfGraphics.Proofs.Cff.Index.Encoding
import PdfGraphics.Proofs.Cff.Dict.Grammar
import PdfGraphics.Proofs.Font.Trailing
import PdfGraphics.Proofs.Function.Evaluation
import PdfGraphics.Proofs.Font.Cache
import PdfGraphics.Proofs.Font.Namesakes
import PdfGraphics.Proofs.Font.Budget
import PdfGraphics.Proofs.Cff.Charset.Lookup
import PdfGraphics.Proofs.Font.Names
import PdfGraphics.Proofs.Dump.Blocks
import PdfGraphics.Proofs.Charstring.Expansion
import PdfGraphics.Proofs.Charstring.Taking
import PdfGraphics.Proofs.Charstring.Failure
import PdfGraphics.Proofs.Font.Composition
import PdfGraphics.Proofs.Charstring.Width
import PdfGraphics.Proofs.Charstring.Mask
import PdfGraphics.Proofs.Charstring.Ending
import PdfGraphics.Proofs.Cff.Charset.Stored
import PdfGraphics.Proofs.Cff.Encoding.Stored
import PdfGraphics.Proofs.Function.Multilinear
import PdfGraphics.Proofs.Bytes.Bits
import PdfGraphics.Proofs.Function.Samples
import PdfGraphics.Proofs.Function.Selection
import PdfGraphics.Proofs.Function.Relevance
import PdfGraphics.Proofs.Geometry.Transform
import PdfGraphics.Proofs.Scalar.Narrowing
import PdfGraphics.Proofs.Cff.Operand.Code
import PdfGraphics.Proofs.Cff.Operand.Decimal
import PdfGraphics.Proofs.Charstring.Roll
import PdfGraphics.Proofs.Charstring.Subroutine
import PdfGraphics.Proofs.Charstring.Random
import PdfGraphics.Proofs.Geometry.CurveBox
import PdfGraphics.Proofs.Geometry.OutlineBox
