import PdfGraphics.Charstring.Operator
import PdfGraphics.Charstring.Stack
import PdfGraphics.Charstring.Xorshift
/-!
The state of a charstring's run, and what each operator does to it.

The calls of subroutines and the bytes still to come are kept apart from it, in the machine.
-/

namespace PdfGraphics.Charstring

-- The advance width, as far as the charstring has decided it.
inductive Advance
  | undecided
  | standard
  -- A width of the charstring's own, with the font's nominal width added.
  | own (w : Float32)
deriving DecidableEq

namespace Advance

-- The first stem, mask, move or end operator decides, by its surplus operand or the lack of one.
def decide (nominal : Float32) (surplus : Option Float32) : Advance → Advance
  | undecided => surplus.elim standard fun w => own (nominal + w)
  | a => a

def width (standardWidth : Float32) : Advance → Float32
  | undecided | standard => standardWidth
  | own w => w

end Advance

-- A request to compose the glyph from a base and an accent, which Standard Encoding names.
structure Accented where
  adx : Float32
  ady : Float32
  base : UInt8
  accent : UInt8
deriving DecidableEq

-- The code that an operand stands for.
def standardCode (v : Float32) : Except DecodeError UInt8 :=
  if Binary32.isIntegral v && 0 ≤ v && v ≤ 255 then .ok v.toUInt8 else .error .invalidOperand

def transientSize : Nat := 32

structure State where
  stack : Stack := []
  transient : Vector Float32 transientSize := .replicate transientSize 0
  path : PathBuilder Float32 := .start
  advance : Advance := .undecided
  -- How many stem hints were declared.
  stems : Nat := 0
  random : UInt32 := Xorshift.seed
  accented : Option Accented := none

-- What a run leaves: an outline, a width, and perhaps a composition that is still to be made.
structure Drawing where
  outline : Outline Float32
  width : Float32
  accented : Option Accented
deriving DecidableEq

namespace State

def transientIndex (v : Float32) : Except DecodeError (Fin transientSize) :=
  let i := Binary32.truncate v
  if h : i.toNat < transientSize then
    if 0 ≤ i then .ok ⟨i.toNat, h⟩ else .error (.transientArrayIndexOutOfRange i)
  else
    .error (.transientArrayIndexOutOfRange i)

def compute (s : State) (op : Arithmetic) : Except DecodeError State :=
  match op, s.stack with
  | .and, b :: a :: rest => .ok { s with stack := Stack.ofBool (a != 0 && b != 0) :: rest }
  | .or, b :: a :: rest => .ok { s with stack := Stack.ofBool (a != 0 || b != 0) :: rest }
  | .not, a :: rest => .ok { s with stack := Stack.ofBool (a == 0) :: rest }
  | .abs, a :: rest => .ok { s with stack := a.abs :: rest }
  | .add, b :: a :: rest => .ok { s with stack := (a + b) :: rest }
  | .sub, b :: a :: rest => .ok { s with stack := (a - b) :: rest }
  | .div, b :: a :: rest =>
    if b == 0 then .error .divisionByZero else .ok { s with stack := (a / b) :: rest }
  | .neg, a :: rest => .ok { s with stack := -a :: rest }
  | .eq, b :: a :: rest => .ok { s with stack := Stack.ofBool (a == b) :: rest }
  | .drop, _ :: rest => .ok { s with stack := rest }
  | .put, i :: v :: rest =>
    (transientIndex i).map fun (slot : Fin transientSize) =>
      { s with stack := rest, transient := s.transient.set slot v }
  | .get, i :: rest =>
    (transientIndex i).map fun (slot : Fin transientSize) =>
      { s with stack := s.transient[slot] :: rest }
  | .ifelse, v₂ :: v₁ :: s₂ :: s₁ :: rest =>
    .ok { s with stack := (if v₁ ≤ v₂ then s₁ else s₂) :: rest }
  | .random, stack =>
    let random := Xorshift.next s.random
    (Stack.push (Xorshift.value random) stack).map fun stack => { s with stack, random }
  | .mul, b :: a :: rest => .ok { s with stack := (a * b) :: rest }
  | .sqrt, a :: rest =>
    if a < 0 then .error .invalidOperand else .ok { s with stack := a.sqrt :: rest }
  | .dup, a :: rest => (Stack.push a (a :: rest)).map fun stack => { s with stack }
  | .exch, b :: a :: rest => .ok { s with stack := a :: b :: rest }
  | .index, i :: rest => (Stack.copy (Binary32.truncate i) rest).map fun stack => { s with stack }
  | .roll, j :: n :: rest =>
    (Stack.roll (Binary32.truncate n) (Binary32.truncate j) rest).map fun stack => { s with stack }
  | _, _ => .error .stackUnderflow

-- The operands from the bottom of the stack, without the width that a surplus one would be.
def operands (s : State) (isSurplus : Nat → Bool) : List Float32 :=
  if isSurplus s.stack.length then s.stack.reverse.drop 1 else s.stack.reverse

-- Clears the stack, and lets a surplus operand at its bottom decide the width.
def clear (s : State) (nominal : Float32) (isSurplus : Nat → Bool) : State :=
  let surplus := if isSurplus s.stack.length then s.stack.getLast? else none
  { s with stack := [], advance := s.advance.decide nominal surplus }

def declareStems (s : State) (nominal : Float32) : State :=
  { s.clear nominal (· % 2 = 1) with stems := s.stems + s.stack.length / 2 }

-- How many bytes a mask for the declared stems takes.
def maskSize (s : State) : Nat :=
  (s.stems + 7) / 8

def move (s : State) (nominal : Float32) (op : MoveOperator) : Except DecodeError State :=
  match op with
  | .rmoveto =>
    match s.operands (2 < ·) with
    | dx :: dy :: _ => .ok { s.clear nominal (2 < ·) with path := s.path.moveBy dx dy }
    | _ => .error .stackUnderflow
  | .hmoveto =>
    match s.operands (1 < ·) with
    | dx :: _ => .ok { s.clear nominal (1 < ·) with path := s.path.moveBy dx 0 }
    | [] => .error .stackUnderflow
  | .vmoveto =>
    match s.operands (1 < ·) with
    | dy :: _ => .ok { s.clear nominal (1 < ·) with path := s.path.moveBy 0 dy }
    | [] => .error .stackUnderflow

def draw (s : State) (op : PathOperator) : Except DecodeError State :=
  match op.draw? s.stack.reverse s.path with
  | some path => .ok { s with stack := [], path }
  | none => .error .stackUnderflow

-- The composition that the operands of the last operator ask for, if there are four.
def accentedOf? : List Float32 → Except DecodeError (Option Accented)
  | [adx, ady, base, accent] => do
    return some { adx, ady, base := ← standardCode base, accent := ← standardCode accent }
  | _ => .ok none

-- Ends the outline. The width stays decided even when the operands turn out to be wrong.
def finish (s : State) (nominal : Float32) : State × Option DecodeError :=
  let isSurplus (n : Nat) : Bool := n = 1 || n = 5
  let cleared := s.clear nominal isSurplus
  match accentedOf? (s.operands isSurplus) with
  | .ok accented => ({ cleared with path := s.path.close, accented }, none)
  | .error e => (cleared, some e)

def drawing (s : State) (defaultWidth : Float32) : Drawing where
  outline := s.path.finish
  width := s.advance.width defaultWidth
  accented := s.accented

end State

end PdfGraphics.Charstring
