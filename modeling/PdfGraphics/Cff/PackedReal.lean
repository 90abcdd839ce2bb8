import PdfGraphics.Cff.Error
import PdfGraphics.Required
/-!
Packed reals: decimal numbers with two nibbles to a byte, each of which spells a piece of the
number.

The first nibble 15 ends the number. What remains of its byte is not looked at.
-/

namespace PdfGraphics.Cff.PackedReal

inductive Mark
  | digit (d : Nat)
  | point
  | exponent
  | minus
deriving DecidableEq

-- The marks that a nibble stands for. One nibble is reserved and stands for nothing.
def marks : Nat → List Mark
  | 10 => [.point]
  | 11 => [.exponent]
  | 12 => [.exponent, .minus]
  | 13 => []
  | 14 => [.minus]
  | d => [.digit d]

-- A real must end within this many bytes.
def maxBytes : Nat := 32

-- The nibbles before the end nibble 15, from at most `budget` bytes, and the bytes that follow.
def nibbles : Nat → List UInt8 → Except DecodeError (List Nat × List UInt8)
  | 0, _ => .error (.invalidOperandEncoding 30)
  | _ + 1, [] => .error .unexpectedEof
  | budget + 1, b :: rest =>
    let hi := b.toNat / 16
    let lo := b.toNat % 16
    if hi = 15 then
      .ok ([], rest)
    else if lo = 15 then
      .ok ([hi], rest)
    else
      (nibbles budget rest).map fun (ns, rest) => (hi :: lo :: ns, rest)

-- The digits in front, and what follows them.
def digits : List Mark → List Nat × List Mark
  | .digit d :: ms => let (ds, rest) := digits ms; (d :: ds, rest)
  | ms => ([], ms)

-- An optional minus sign in front.
def sign : List Mark → Bool × List Mark
  | .minus :: ms => (true, ms)
  | ms => (false, ms)

def fraction : List Mark → List Nat × List Mark
  | .point :: ms => digits ms
  | ms => ([], ms)

def ofDigits (ds : List Nat) : Nat :=
  ds.foldl (fun n d => n * 10 + d) 0

-- An optional exponent, which must end the number.
def exponent? : List Mark → Option Int
  | [] => some 0
  | .exponent :: ms =>
    let (isNegative, ms) := sign ms
    match digits ms with
    | (d :: ds, []) => some (if isNegative then -ofDigits (d :: ds) else ofDigits (d :: ds))
    | _ => none
  | _ => none

-- A decimal number with at least one digit before its exponent; nothing at all counts as zero.
def parse? (ms : List Mark) : Option Float :=
  if ms.isEmpty then
    some 0
  else
    let (isNegative, ms) := sign ms
    let (whole, ms) := digits ms
    let (part, ms) := fraction ms
    if whole.isEmpty && part.isEmpty then
      none
    else
      (exponent? ms).map fun power =>
        let e : Int := power - part.length
        let x := Float.ofScientific (ofDigits (whole ++ part)) (e < 0) e.natAbs
        if isNegative then -x else x

def read (bytes : List UInt8) : Except DecodeError (Float × List UInt8) := do
  let (ns, rest) ← nibbles maxBytes bytes
  let x ← need (parse? (ns.flatMap marks)) (.invalidOperandEncoding 30)
  return (x, rest)

theorem length_of_nibbles {budget : Nat} {bytes rest : List UInt8} {ns : List Nat}
    (h : nibbles budget bytes = .ok (ns, rest)) : rest.length < bytes.length := by
  induction budget generalizing bytes ns rest with
  | zero => simp [nibbles] at h
  | succ budget ih =>
    cases bytes with
    | nil => simp [nibbles] at h
    | cons b tail =>
      simp only [nibbles] at h
      split at h
      case isTrue => simp_all
      case isFalse =>
        split at h
        case isTrue => simp_all
        case isFalse =>
          cases hn : nibbles budget tail with
          | error => simp [hn, Except.map] at h
          | ok r =>
            have := ih hn
            simp [hn, Except.map] at h
            simp [← h.2]; omega

theorem length_of_read {bytes rest : List UInt8} {x : Float} (h : read bytes = .ok (x, rest)) :
    rest.length < bytes.length := by
  simp only [read, need, bind, Except.bind, pure, Except.pure] at h
  split at h
  · simp at h
  case h_2 r hr =>
    split at h
    · simp at h
    · obtain ⟨-, rfl⟩ := by simpa using h
      exact length_of_nibbles hr

end PdfGraphics.Cff.PackedReal
