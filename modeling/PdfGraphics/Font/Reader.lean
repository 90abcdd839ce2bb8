import PdfGraphics.Cff.Dict
import PdfGraphics.Font.Basic
/-!
Reading a font.

After the header come four INDEXes, one behind the other: names, top DICTs, strings and global
subroutines. All else is found by offsets in the first top DICT and in the Private DICT.
-/

namespace PdfGraphics.Font

def readHeader (buffer : List UInt8) : Except DecodeError Header :=
  match buffer with
  | major :: minor :: size :: offsetSize :: _ =>
    if major = 1 ∧ 4 ≤ size ∧ 1 ≤ offsetSize ∧ offsetSize ≤ 4 ∧ size.toNat ≤ buffer.length then
      .ok { major, minor, size, offsetSize }
    else
      .error .malformedHeader
  | _ => .error .malformedHeader

-- The Private DICT and the local subroutines that it may have.
def readPrivate (buffer : List UInt8) (range : Option (Nat × Nat)) :
    Except DecodeError (Cff.PrivateDict × Cff.Index) :=
  match range with
  | none => .ok ({}, {})
  | some (size, offset) => do
    let data ← need (Bytes.slice? buffer offset size) .malformedDict
    let dict ← Cff.PrivateDict.ofDict (← Cff.Dict.read data)
    match dict.subrs with
    | none => return (dict, {})
    | some subrs => return (dict, ← Cff.Index.read buffer (offset + subrs))

def read (buffer : List UInt8) : Except DecodeError Font := do
  let header ← readHeader buffer
  let start := header.size.toNat
  let names ← Cff.Index.read buffer start
  let start := start + names.size
  let tops ← Cff.Index.read buffer start
  let start := start + tops.size
  let top ← Cff.TopDict.ofDict (← Cff.Dict.read (← need (tops.get? 0) .malformedIndex))
  let strings ← Cff.Index.read buffer start
  let start := start + strings.size
  let globalSubrs ← Cff.Index.read buffer start
  let charstrings ← Cff.Index.read buffer (← need top.charStrings .missingCharStrings)
  if charstrings.count = 0 then
    throw .missingCharStrings
  let (privateDict, localSubrs) ← readPrivate buffer top.privateRange
  let charset ← Cff.Charset.read buffer top.charset charstrings.count
  let encoding ← Cff.Encoding.read buffer top.encoding
  return {
    header, names, top, strings, globalSubrs, charstrings, privateDict, localSubrs, charset, encoding
  }

end PdfGraphics.Font
