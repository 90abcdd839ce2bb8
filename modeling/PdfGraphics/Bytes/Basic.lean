/-!
Reading the front of a byte string.

A reader returns what it read together with the bytes that follow. It sees no more of the string
than the bytes it takes, unless it runs out of them.
-/

namespace PdfGraphics

namespace Bytes

-- The number that big-endian bytes spell.
def value (bytes : List UInt8) : Nat :=
  bytes.foldl (fun n b => n * 256 + b.toNat) 0

-- Splits off the first `n` bytes, when there are that many.
def take? (n : Nat) (bytes : List UInt8) : Option (List UInt8 × List UInt8) :=
  let front := bytes.take n
  if front.length = n then some (front, bytes.drop n) else none

-- Drops the first `n` bytes, when there are that many.
def skip? : Nat → List UInt8 → Option (List UInt8)
  | 0, bytes => some bytes
  | _ + 1, [] => none
  | n + 1, _ :: bytes => skip? n bytes

def number? (width : Nat) (bytes : List UInt8) : Option (Nat × List UInt8) :=
  (take? width bytes).map fun (front, rest) => (value front, rest)

-- Reads a number in two's complement.
def signed? (width : Nat) (bytes : List UInt8) : Option (Int × List UInt8) :=
  (number? width bytes).map fun (n, rest) => (Int.bmod n (Nat.pow 256 width), rest)

-- Reads `count` numbers of one width after those in `read`, the latest first.
def numbersAfter (width : Nat) (read : List Nat) : Nat → List UInt8 → Option (List Nat × List UInt8)
  | 0, bytes => some (read.reverse, bytes)
  | count + 1, bytes =>
    match number? width bytes with
    | some (n, rest) => numbersAfter width (n :: read) count rest
    | none => none

def numbers? (width count : Nat) (bytes : List UInt8) : Option (List Nat × List UInt8) :=
  numbersAfter width [] count bytes

-- The `size` bytes at `offset`, when they lie inside.
def slice? (bytes : List UInt8) (offset size : Nat) : Option (List UInt8) :=
  if offset ≤ bytes.length then (take? size (bytes.drop offset)).map (·.1) else none

@[simp] theorem value_nil : value [] = 0 := rfl

theorem take?_eq_some {n : Nat} {bytes front rest : List UInt8} :
    take? n bytes = some (front, rest) ↔ front.length = n ∧ bytes = front ++ rest := by
  simp only [take?]
  constructor
  · intro h
    split at h
    case isTrue hn =>
      obtain ⟨rfl, rfl⟩ := by simpa using h
      exact ⟨hn, (List.take_append_drop ..).symm⟩
    case isFalse => simp at h
  · rintro ⟨rfl, rfl⟩
    simp

theorem length_of_take? {n : Nat} {bytes front rest : List UInt8}
    (h : take? n bytes = some (front, rest)) : bytes.length = n + rest.length := by
  obtain ⟨rfl, rfl⟩ := take?_eq_some.mp h
  simp

theorem length_of_number? {width n : Nat} {bytes rest : List UInt8}
    (h : number? width bytes = some (n, rest)) : bytes.length = width + rest.length := by
  simp only [number?, Option.map_eq_some_iff] at h
  obtain ⟨⟨front, rest⟩, h, he⟩ := h
  obtain ⟨-, rfl⟩ := by simpa using he
  exact length_of_take? h

theorem length_of_signed? {width : Nat} {n : Int} {bytes rest : List UInt8}
    (h : signed? width bytes = some (n, rest)) : bytes.length = width + rest.length := by
  simp only [signed?, Option.map_eq_some_iff] at h
  obtain ⟨⟨front, rest⟩, h, he⟩ := h
  obtain ⟨-, rfl⟩ := by simpa using he
  exact length_of_number? h

end Bytes

end PdfGraphics
