import PdfGraphics.Charstring.Segment
/-!
The operators of a charstring, and the numbers they have in its bytes.
-/

namespace PdfGraphics.Charstring

-- The operators that compute on the stack and on the transient array.
inductive Arithmetic
  | and
  | or
  | not
  | abs
  | add
  | sub
  | div
  | neg
  | eq
  | drop
  | put
  | get
  | ifelse
  | random
  | mul
  | sqrt
  | dup
  | exch
  | index
  | roll
deriving DecidableEq

inductive MoveOperator
  | rmoveto
  | hmoveto
  | vmoveto
deriving DecidableEq

inductive Operator
  -- One of the four operators that declare stem hints.
  | stem
  -- A hint mask or a counter mask.
  | mask
  | move (op : MoveOperator)
  | path (op : PathOperator)
  | arithmetic (op : Arithmetic)
  | callsubr
  | callgsubr
  -- Goes back from a subroutine to its caller.
  | leave
  | endchar
deriving DecidableEq

-- The byte before the second byte of a long operator.
def escapeByte : UInt8 := 12

def isOperand (b : UInt8) : Bool :=
  b = 28 || 32 ≤ b

namespace Operator

-- The number of the operator that begins with the byte `b`, and the bytes that follow it.
def number? (b : UInt8) (bytes : List UInt8) : Option (Nat × List UInt8) :=
  if b = escapeByte then
    match bytes with
    | [] => none
    | b₁ :: bytes => some (1200 + b₁.toNat, bytes)
  else
    some (b.toNat, bytes)

def ofNumber? : Nat → Option Operator
  | 1 | 3 | 18 | 23 => some stem
  | 4 => some (move .vmoveto)
  | 5 => some (path .rlineto)
  | 6 => some (path .hlineto)
  | 7 => some (path .vlineto)
  | 8 => some (path .rrcurveto)
  | 10 => some callsubr
  | 11 => some leave
  | 14 => some endchar
  | 19 | 20 => some mask
  | 21 => some (move .rmoveto)
  | 22 => some (move .hmoveto)
  | 24 => some (path .rcurveline)
  | 25 => some (path .rlinecurve)
  | 26 => some (path .vvcurveto)
  | 27 => some (path .hhcurveto)
  | 29 => some callgsubr
  | 30 => some (path .vhcurveto)
  | 31 => some (path .hvcurveto)
  | 1203 => some (arithmetic .and)
  | 1204 => some (arithmetic .or)
  | 1205 => some (arithmetic .not)
  | 1209 => some (arithmetic .abs)
  | 1210 => some (arithmetic .add)
  | 1211 => some (arithmetic .sub)
  | 1212 => some (arithmetic .div)
  | 1214 => some (arithmetic .neg)
  | 1215 => some (arithmetic .eq)
  | 1218 => some (arithmetic .drop)
  | 1220 => some (arithmetic .put)
  | 1221 => some (arithmetic .get)
  | 1222 => some (arithmetic .ifelse)
  | 1223 => some (arithmetic .random)
  | 1224 => some (arithmetic .mul)
  | 1226 => some (arithmetic .sqrt)
  | 1227 => some (arithmetic .dup)
  | 1228 => some (arithmetic .exch)
  | 1229 => some (arithmetic .index)
  | 1230 => some (arithmetic .roll)
  | 1234 => some (path .hflex)
  | 1235 => some (path .flex)
  | 1236 => some (path .hflex1)
  | 1237 => some (path .flex1)
  | _ => none

end Operator

end PdfGraphics.Charstring
