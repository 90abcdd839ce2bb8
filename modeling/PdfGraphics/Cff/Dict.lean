import PdfGraphics.Cff.Dict.Operator
import PdfGraphics.Cff.Operand
/-!
A DICT: operators, each after its operands.

The last occurrence of an operator counts. Every fault of the form, a lack of bytes included, makes
the DICT malformed; only a bad operand says more.
-/

namespace PdfGraphics.Cff

-- The operands of each operator, operators in ascending order.
structure Dict where
  entries : List (Nat × List Operand) := []
deriving DecidableEq

namespace Dict

def maxOperands : Nat := 48

def insertInto (operator : Nat) (operands : List Operand) :
    List (Nat × List Operand) → List (Nat × List Operand)
  | [] => [(operator, operands)]
  | (o, old) :: rest =>
    if operator < o then
      (operator, operands) :: (o, old) :: rest
    else if operator = o then
      (operator, operands) :: rest
    else
      (o, old) :: insertInto operator operands rest

def insert (d : Dict) (operator : Nat) (operands : List Operand) : Dict :=
  ⟨insertInto operator operands d.entries⟩

def get? (d : Dict) (operator : Nat) : Option (List Operand) :=
  d.entries.lookup operator

inductive Token
  | operand (v : Operand)
  | operator (o : Nat)
deriving DecidableEq

-- A lack of bytes is a fault of the DICT, not of the operand that it cuts short.
def cutShort : DecodeError → DecodeError
  | .unexpectedEof => .malformedDict
  | e => e

-- Reads the token that begins with the byte `b`.
def Token.read (b : UInt8) (bytes : List UInt8) : Except DecodeError (Token × List UInt8) :=
  if b = 12 then
    match bytes with
    | [] => .error .malformedDict
    | b₁ :: bytes => .ok (.operator (Operator.escaped b₁), bytes)
  else if b ≤ 21 then
    .ok (.operator b.toNat, bytes)
  else if b ≤ 27 ∨ b = 31 then
    .error .malformedDict
  else
    match Operand.readFrom .dict b bytes with
    | .ok (v, rest) => .ok (.operand v, rest)
    | .error e => .error (cutShort e)

theorem Token.length_of_read {b : UInt8} {bytes rest : List UInt8} {t : Token}
    (h : Token.read b bytes = .ok (t, rest)) : rest.length ≤ bytes.length := by
  simp only [Token.read] at h
  split at h
  · cases bytes <;> simp at h
    simp [← h.2]
  · split at h
    · simp at h
      simp [h.2]
    · split at h
      · simp at h
      · cases hr : Operand.readFrom .dict b bytes <;> simp [hr] at h
        have := Operand.length_of_readFrom hr
        grind

-- Reads on, for a DICT read so far and pending operands, the latest first.
def readAfter (d : Dict) (pending : List Operand) : List UInt8 → Except DecodeError Dict
  | [] => if pending.isEmpty then .ok d else .error .malformedDict
  | b :: bytes =>
    match h : Token.read b bytes with
    | .error e =>
      -- That there is no room for an operand shows before the operand itself is read.
      .error (if pending.length = maxOperands then .malformedDict else e)
    | .ok (.operator o, rest) =>
      have := Token.length_of_read h
      readAfter (d.insert o pending.reverse) [] rest
    | .ok (.operand v, rest) =>
      have := Token.length_of_read h
      if pending.length = maxOperands then
        .error .malformedDict
      else
        readAfter d (v :: pending) rest
termination_by bytes => bytes.length

def read (bytes : List UInt8) : Except DecodeError Dict :=
  readAfter {} [] bytes

-- The operand of an operator that takes a single one.
def single? (d : Dict) (operator : Nat) : Except DecodeError (Option Operand) :=
  match d.get? operator with
  | none => .ok none
  | some [v] => .ok (some v)
  | some _ => .error .malformedDict

def number? (d : Dict) (operator : Nat) : Except DecodeError (Option Float32) :=
  return (← d.single? operator).map Operand.toBinary32

-- An operand that must be a natural number up to `max`.
def nat? (d : Dict) (operator max : Nat) : Except DecodeError (Option Nat) := do
  match ← d.single? operator with
  | none => return none
  | some v =>
    match v.toNat? with
    | some n => if n ≤ max then return some n else throw .malformedDict
    | none => throw .malformedDict

def bool? (d : Dict) (operator : Nat) : Except DecodeError (Option Bool) :=
  return (← d.nat? operator 1).map (· = 1)

end Dict

end PdfGraphics.Cff
