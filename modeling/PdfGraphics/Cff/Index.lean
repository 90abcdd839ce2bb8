import PdfGraphics.Bytes.Basic
import PdfGraphics.Cff.Error
import PdfGraphics.Required
/-!
An INDEX: a counted table of byte strings.

The table stores where each entry begins, counted from the byte before the data, and where the last
one ends. An entry is kept with its own bytes and with its place in the buffer.
-/

namespace PdfGraphics.Cff

structure Index where
  -- The entries, each with the position of its first byte in the buffer.
  entries : Array (Nat × List UInt8) := #[]
  -- How many bytes the whole table takes.
  size : Nat := 2
deriving DecidableEq

namespace Index

def count (index : Index) : Nat :=
  index.entries.size

def get? (index : Index) (i : Nat) : Option (List UInt8) :=
  index.entries[i]?.map (·.2)

theorem lt_count_of_get? {index : Index} {i : Nat} {entry : List UInt8}
    (h : index.get? i = some entry) : i < index.count := by
  simp only [get?, Option.map_eq_some_iff] at h
  have ⟨_, he, _⟩ := h
  exact (Array.getElem?_eq_some_iff.mp he).1

-- The entries from number `i` on, up to the first that is not there.
def toListFrom (index : Index) (i : Nat) : List (List UInt8) :=
  match h : index.get? i with
  | none => []
  | some entry => entry :: index.toListFrom (i + 1)
termination_by index.count - i
decreasing_by
  have := lt_count_of_get? h
  omega

def toList (index : Index) : List (List UInt8) :=
  index.toListFrom 0

-- Cuts entries off the data, after those in `cut`. Offsets count from `base`; the next entry starts
-- at `start`, and the data begins there.
def cutAfter (base : Nat) (cut : Array (Nat × List UInt8)) (start : Nat) :
    List Nat → List UInt8 → Option (Array (Nat × List UInt8))
  | [], _ => some cut
  | stop :: stops, data =>
    if stop < start then
      none
    else
      match Bytes.take? (stop - start) data with
      | some (entry, rest) => cutAfter base (cut.push (base + start, entry)) stop stops rest
      | none => none

-- Reads the table at the front of `bytes`, which are at `position` in the buffer.
def parse? (position : Nat) (bytes : List UInt8) : Option Index := do
  let (count, bytes) ← Bytes.number? 2 bytes
  if count = 0 then
    return {}
  let (width, bytes) ← Bytes.number? 1 bytes
  guard (1 ≤ width ∧ width ≤ 4)
  let (offsets, bytes) ← Bytes.numbers? width (count + 1) bytes
  match offsets with
  | [] => none
  | first :: stops =>
    guard (1 ≤ first)
    let base := position + 2 + width * (count + 1)
    let (_, data) ← Bytes.take? (first - 1) bytes
    let entries ← cutAfter base #[] first stops data
    return { entries, size := 2 + width * (count + 1) + stops.getLastD first }

def read (buffer : List UInt8) (offset : Nat) : Except DecodeError Index :=
  need (parse? offset (buffer.drop offset)) .malformedIndex

end Index

end PdfGraphics.Cff
