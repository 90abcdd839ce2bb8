import PdfGraphics.Bytes.Basic
import PdfGraphics.Bytes.Word
import PdfGraphics.Cff.Charset.Predefined
import PdfGraphics.Cff.Error
import PdfGraphics.Required
/-!
Charsets: which string identifier names each glyph.

Glyph 0 is always identifier 0, and no charset of a font lists it. The other glyphs are listed one
by one or in runs of consecutive identifiers.
-/

namespace PdfGraphics.Cff

-- A first identifier and the number of identifiers after it.
structure Charset.Run where
  first : UInt16
  left : UInt16
deriving DecidableEq

inductive Charset
  -- Every glyph has its own number for identifier.
  | isoAdobe
  | expert
  | expertSubset
  | listed (sids : Array UInt16)
  -- Runs that were stored with one byte for the number of identifiers left.
  | shortRuns (runs : List Charset.Run)
  | longRuns (runs : List Charset.Run)
deriving DecidableEq

namespace Charset

namespace Run

-- The identifier at position `n` of the runs written out.
def sidAt? (n : Nat) : List Run → Option UInt16
  | [] => none
  | run :: runs =>
    if n ≤ run.left.toNat then
      word16? (run.first.toNat + n)
    else
      sidAt? (n - (run.left.toNat + 1)) runs

def contains (run : Run) (sid : UInt16) : Bool :=
  run.first ≤ sid && sid.toNat ≤ run.first.toNat + run.left.toNat

-- The number of the first glyph with an identifier, when the runs begin at glyph `n`.
def glyphFrom? (sid : UInt16) (n : Nat) : List Run → Option UInt16
  | [] => none
  | run :: runs =>
    if run.contains sid then
      word16? (n + (sid.toNat - run.first.toNat))
    else
      glyphFrom? sid (n + run.left.toNat + 1) runs

end Run

def sidOfGlyph? (charset : Charset) (glyph : UInt16) : Option UInt16 :=
  if glyph = 0 then
    some 0
  else
    match charset with
    | isoAdobe => some glyph
    | expert => expertTable[glyph.toNat]?
    | expertSubset => expertSubsetTable[glyph.toNat]?
    | listed sids => sids[glyph.toNat - 1]?
    | shortRuns runs | longRuns runs => Run.sidAt? (glyph.toNat - 1) runs

def glyphOfSid? (charset : Charset) (sid : UInt16) : Option UInt16 :=
  if sid = 0 then
    some 0
  else
    match charset with
    | isoAdobe => some sid
    | expert => expertTable.idxOf? sid >>= word16?
    | expertSubset => expertSubsetTable.idxOf? sid >>= word16?
    | listed sids => (sids.idxOf? sid).bind fun i => word16? (i + 1)
    | shortRuns runs | longRuns runs => Run.glyphFrom? sid 1 runs

/-! Reading a charset from a font. -/

-- Reads runs until they name `missing` more glyphs, after those in `read`, the latest first. The
-- last run is cut where the glyphs end. Each run says in `width` bytes how many identifiers are
-- left.
def readRuns (format : UInt8) (width : Nat) (read : List Run) (missing : Nat) (bytes : List UInt8) :
    Except DecodeError (List Run) :=
  if missing = 0 then
    .ok read.reverse
  else
    match Bytes.number? 2 bytes with
    | none => .error .unexpectedEof
    | some (first, bytes) =>
      match Bytes.number? width bytes with
      | none => .error .unexpectedEof
      | some (left, bytes) =>
        let left := min left (missing - 1)
        if first + left < 65536 then
          let run := ⟨UInt16.ofNat first, UInt16.ofNat left⟩
          readRuns format width (run :: read) (missing - (left + 1)) bytes
        else
          .error (.invalidCharset format)
termination_by missing

-- Reads a charset that names `missing` glyphs after the first.
def readCustom (missing : Nat) : List UInt8 → Except DecodeError Charset
  | [] => .error .unexpectedEof
  | format :: bytes =>
    match format with
    | 0 => (need (Bytes.numbers? 2 missing bytes) .unexpectedEof).map fun (sids, _) =>
        listed (sids.map UInt16.ofNat).toArray
    | 1 => (readRuns format 1 [] missing bytes).map shortRuns
    | 2 => (readRuns format 2 [] missing bytes).map longRuns
    | _ => .error (.invalidCharset format)

-- The charset that a font's top DICT names by `base`: a predefined one, or one at that offset.
def read (buffer : List UInt8) (base glyphCount : Nat) : Except DecodeError Charset :=
  match base with
  | 0 => .ok isoAdobe
  | 1 => .ok expert
  | 2 => .ok expertSubset
  | _ => readCustom (glyphCount - 1) (buffer.drop base)

end Charset

end PdfGraphics.Cff
