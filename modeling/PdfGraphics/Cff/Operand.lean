import PdfGraphics.Bytes.Basic
import PdfGraphics.Cff.PackedReal
import PdfGraphics.Scalar.Binary32
/-!
The numbers in DICT data and in charstrings.

The first byte of an operand tells how many bytes follow it, except in a packed real, which ends
with a nibble of its own. A few forms are legal in only one of the two places.
-/

namespace PdfGraphics.Cff

-- What an operand says, before it is rounded to a floating-point format.
inductive Operand
  | integer (n : Int)
  -- A signed count of 65536ths.
  | fixed (bits : Int)
  | real (x : Float)
deriving DecidableEq

namespace Operand

inductive Context
  | dict
  | charstring
deriving DecidableEq

def toBinary64 : Operand → Float
  | integer n => Float.ofInt n
  | fixed bits => Float.ofInt bits / 65536
  | real x => x

def toBinary32 : Operand → Float32
  | integer n => Binary32.ofInt n
  | fixed bits => Binary32.ofInt bits / 65536
  | real x => Binary32.ofBinary64 x

def toNat? : Operand → Option Nat
  | integer n => n.toNat?
  | fixed bits => if 0 ≤ bits ∧ bits % 65536 = 0 then some (bits / 65536).toNat else none
  | real x => Binary64.toNat? x

end Operand

namespace Operand

-- How an operand goes on after its first byte.
inductive Form
  | one (n : Int)
  -- One more byte, to be added to or taken from a base.
  | two (base sign : Int)
  | word (width : Nat)
  | fixed
  | real
deriving DecidableEq

-- The form that a first byte announces.
def form? (context : Context) (b : UInt8) : Option Form :=
  let n : Int := b.toNat
  if b = 28 then
    some (.word 2)
  else if 32 ≤ b ∧ b ≤ 246 then
    some (.one (n - 139))
  else if 247 ≤ b ∧ b ≤ 250 then
    some (.two ((n - 247) * 256 + 108) 1)
  else if 251 ≤ b ∧ b ≤ 254 then
    some (.two (-(n - 251) * 256 - 108) (-1))
  else
    match context with
    | .dict => if b = 29 then some (.word 4) else if b = 30 then some .real else none
    | .charstring => if b = 255 then some .fixed else none

def readForm (form : Form) (bytes : List UInt8) : Except DecodeError (Operand × List UInt8) :=
  match form with
  | .one n => .ok (.integer n, bytes)
  | .two base sign =>
    (need (Bytes.number? 1 bytes) .unexpectedEof).map fun (b, rest) =>
      (.integer (base + sign * b), rest)
  | .word width =>
    (need (Bytes.signed? width bytes) .unexpectedEof).map fun (n, rest) => (.integer n, rest)
  | .fixed => (need (Bytes.signed? 4 bytes) .unexpectedEof).map fun (n, rest) => (.fixed n, rest)
  | .real => (PackedReal.read bytes).map fun (x, rest) => (.real x, rest)

-- Reads the operand that begins with the byte `b`, whose other bytes come first in `bytes`.
def readFrom (context : Context) (b : UInt8) (bytes : List UInt8) :
    Except DecodeError (Operand × List UInt8) :=
  match form? context b with
  | some form => readForm form bytes
  | none => .error (.invalidOperandEncoding b)

-- Decodes the operand in front, and counts its bytes.
def decode (context : Context) : List UInt8 → Except DecodeError (Operand × Nat)
  | [] => .error .unexpectedEof
  | b :: bytes =>
    (readFrom context b bytes).map fun (v, rest) => (v, bytes.length + 1 - rest.length)

theorem length_of_readForm {form : Form} {bytes rest : List UInt8} {v : Operand}
    (h : readForm form bytes = .ok (v, rest)) : rest.length ≤ bytes.length := by
  cases form <;> simp only [readForm] at h
  case one =>
    simp at h
    simp [h.2]
  case two =>
    cases hn : Bytes.number? 1 bytes <;> simp [hn, need, Except.map] at h
    have := Bytes.length_of_number? hn
    grind
  case word width =>
    cases hn : Bytes.signed? width bytes <;> simp [hn, need, Except.map] at h
    have := Bytes.length_of_signed? hn
    grind
  case fixed =>
    cases hn : Bytes.signed? 4 bytes <;> simp [hn, need, Except.map] at h
    have := Bytes.length_of_signed? hn
    grind
  case real =>
    cases hn : PackedReal.read bytes <;> simp [hn, Except.map] at h
    have := PackedReal.length_of_read hn
    grind

theorem length_of_readFrom {context : Context} {b : UInt8} {bytes rest : List UInt8} {v : Operand}
    (h : readFrom context b bytes = .ok (v, rest)) : rest.length ≤ bytes.length := by
  simp only [readFrom] at h
  split at h
  · exact length_of_readForm h
  · simp at h

end Operand

end PdfGraphics.Cff
