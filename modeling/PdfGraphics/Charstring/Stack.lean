import PdfGraphics.Cff.Error
import PdfGraphics.Required
/-!
The operand stack of a charstring.
-/

namespace PdfGraphics.Charstring

-- The operand stack, its top first.
abbrev Stack := List Float32

def maxStack : Nat := 48

namespace Stack

def push (v : Float32) (s : Stack) : Except DecodeError Stack :=
  if s.length < maxStack then .ok (v :: s) else .error .stackOverflow

def ofBool (b : Bool) : Float32 :=
  if b then 1 else 0

-- Turns the top `n` values round by `j` places, towards the top for a positive `j`.
def roll (n j : Int) (s : Stack) : Except DecodeError Stack :=
  if n ≤ 0 then
    .error .invalidOperand
  else if s.length < n.toNat then
    .error .stackUnderflow
  else
    .ok ((s.take n.toNat).rotateLeft (j % n).toNat ++ s.drop n.toNat)

-- Copies the value `i` places below the top; a negative `i` copies the top.
def copy (i : Int) (s : Stack) : Except DecodeError Stack := do
  push (← need s[i.toNat]? .stackUnderflow) s

end Stack

end PdfGraphics.Charstring
