import PdfGraphics.Cff.Charset
import PdfGraphics.Cff.Encoding.Predefined
/-!
Encodings: which glyph a character code shows.

A predefined encoding names glyphs by their string identifiers, so it works through the charset. One
of a font's own gives codes to glyphs 1, 2, 3, … and may add codes for identifiers.
-/

namespace PdfGraphics.Cff

-- A first code and the number of codes after it.
structure Encoding.Run where
  first : UInt8
  left : UInt8
deriving DecidableEq

-- A further code for the glyph with a given identifier.
structure Encoding.Supplement where
  code : UInt8
  sid : UInt16
deriving DecidableEq

inductive Encoding
  | standard
  | expert
  | listed (codes : List UInt8) (supplements : List Encoding.Supplement)
  | ranged (runs : List Encoding.Run) (supplements : List Encoding.Supplement)
deriving DecidableEq

namespace Encoding

def Run.contains (run : Run) (code : UInt8) : Bool :=
  run.first ≤ code && code.toNat ≤ run.first.toNat + run.left.toNat

-- The number of the first glyph with a code, when the runs begin at glyph `n`.
def Run.glyphFrom? (code : UInt8) (n : Nat) : List Run → Option UInt16
  | [] => none
  | run :: runs =>
    if run.contains code then
      word16? (n + (code.toNat - run.first.toNat))
    else
      Run.glyphFrom? code (n + run.left.toNat + 1) runs

-- The glyph of the identifier that a table of 256 gives to a code; identifier 0 stands for none.
def glyphInTable? (table : Array UInt16) (charset : Charset) (code : UInt8) : Option UInt16 :=
  match table[code.toNat]? with
  | none | some 0 => none
  | some sid => charset.glyphOfSid? sid

def glyphInSupplements? (supplements : List Supplement) (charset : Charset) (code : UInt8) :
    Option UInt16 :=
  (supplements.find? (·.code = code)).bind fun s => charset.glyphOfSid? s.sid

def glyph? (encoding : Encoding) (charset : Charset) (code : UInt8) : Option UInt16 :=
  match encoding with
  | standard => glyphInTable? standardTable charset code
  | expert => glyphInTable? expertTable charset code
  | listed codes supplements =>
    ((codes.idxOf? code).bind fun i => word16? (i + 1)).or
      (glyphInSupplements? supplements charset code)
  | ranged runs supplements =>
    (Run.glyphFrom? code 1 runs).or (glyphInSupplements? supplements charset code)

/-! Reading an encoding from a font. -/

def readRuns (format : UInt8) : Nat → List UInt8 → Except DecodeError (List Run × List UInt8)
  | 0, bytes => .ok ([], bytes)
  | count + 1, first :: left :: bytes =>
    if first.toNat + left.toNat < 256 then
      (readRuns format count bytes).map fun (runs, rest) => (⟨first, left⟩ :: runs, rest)
    else
      .error (.invalidEncoding format)
  | _ + 1, _ => .error .unexpectedEof

def readSupplementList : Nat → List UInt8 → Except DecodeError (List Supplement)
  | 0, _ => .ok []
  | count + 1, code :: bytes =>
    match Bytes.number? 2 bytes with
    | none => .error .unexpectedEof
    | some (sid, bytes) =>
      (readSupplementList count bytes).map fun ss => ⟨code, UInt16.ofNat sid⟩ :: ss
  | _ + 1, [] => .error .unexpectedEof

-- The high bit of the format byte announces supplements.
def readSupplements (format : UInt8) (bytes : List UInt8) : Except DecodeError (List Supplement) :=
  if format < 128 then
    .ok []
  else
    match bytes with
    | [] => .error .unexpectedEof
    | count :: bytes => readSupplementList count.toNat bytes

def readCodes : List UInt8 → Except DecodeError (List UInt8 × List UInt8)
  | [] => .error .unexpectedEof
  | count :: bytes => need (Bytes.take? count.toNat bytes) .unexpectedEof

def readCustom : List UInt8 → Except DecodeError Encoding
  | [] => .error .unexpectedEof
  | format :: bytes =>
    match format.toNat % 128 with
    | 0 => do
      let (codes, rest) ← readCodes bytes
      return listed codes (← readSupplements format rest)
    | 1 => do
      match bytes with
      | [] => throw .unexpectedEof
      | count :: bytes =>
        let (runs, rest) ← readRuns format count.toNat bytes
        return ranged runs (← readSupplements format rest)
    | _ => .error (.invalidEncoding format)

-- The encoding that a font's top DICT names by `base`: a predefined one, or one at that offset.
def read (buffer : List UInt8) (base : Nat) : Except DecodeError Encoding :=
  match base with
  | 0 => .ok standard
  | 1 => .ok expert
  | _ => readCustom (buffer.drop base)

end Encoding

end PdfGraphics.Cff
