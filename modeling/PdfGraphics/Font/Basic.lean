import PdfGraphics.Cff.Encoding
import PdfGraphics.Cff.Index
import PdfGraphics.Cff.StandardString
import PdfGraphics.Cff.TopDict
import PdfGraphics.Text.Utf8
/-!
Fonts, and the names, numbers and codes of their glyphs.
-/

namespace PdfGraphics

structure Font.Header where
  major : UInt8
  minor : UInt8
  size : UInt8
  offsetSize : UInt8
deriving DecidableEq

structure Font where
  header : Font.Header
  names : Cff.Index
  top : Cff.TopDict
  strings : Cff.Index
  globalSubrs : Cff.Index
  charstrings : Cff.Index
  privateDict : Cff.PrivateDict
  localSubrs : Cff.Index
  charset : Cff.Charset
  encoding : Cff.Encoding

-- How a glyph is asked for: by its number, by its name or by a character code.
inductive GlyphRef
  | index (i : UInt16)
  | name (s : String)
  | code (c : UInt8)
deriving DecidableEq

namespace Font

def glyphCount (font : Font) : Nat :=
  font.charstrings.count

def name? (font : Font) : Option String :=
  font.names.get? 0 >>= Text.ofUtf8?

-- The string of an identifier: a standard string, or one that the font stores.
def stringOfSid (font : Font) (sid : UInt16) : Except DecodeError String :=
  match Cff.standardStrings[sid.toNat]? with
  | some s => .ok s
  | none =>
    let stored? := font.strings.get? (sid.toNat - Cff.standardStrings.size)
    need (stored? >>= Text.ofUtf8?) (.invalidStringId sid)

-- The least identifier of a string.
def sidOfString? (font : Font) (s : String) : Option UInt16 :=
  match Cff.standardStrings.idxOf? s with
  | some i => word16? i
  | none =>
    (font.strings.entries.findIdx? fun entry => entry.2 == Text.utf8 s).bind fun i =>
      word16? (i + Cff.standardStrings.size)

def fullName? (font : Font) : Option String :=
  font.top.fullName >>= fun sid => (font.stringOfSid sid).toOption

def familyName? (font : Font) : Option String :=
  font.top.familyName >>= fun sid => (font.stringOfSid sid).toOption

def glyphName (font : Font) (glyph : UInt16) : Except DecodeError String :=
  if glyph.toNat < font.glyphCount then do
    font.stringOfSid (← need (font.charset.sidOfGlyph? glyph) .unknownGlyph)
  else
    .error .unknownGlyph

def glyphNames (font : Font) : List (Except DecodeError String) :=
  (List.range font.glyphCount).map fun i => font.glyphName (UInt16.ofNat i)

-- A glyph's number, if the font has that many glyphs.
def within? (font : Font) (glyph : UInt16) : Option UInt16 :=
  if glyph.toNat < font.glyphCount then some glyph else none

def glyphOfName? (font : Font) (s : String) : Option UInt16 :=
  font.sidOfString? s >>= font.charset.glyphOfSid?

def glyphIndex (font : Font) (ref : GlyphRef) : Except DecodeError UInt16 :=
  let glyph? := match ref with
    | .index i => some i
    | .name s => font.glyphOfName? s
    | .code c => font.encoding.glyph? font.charset c
  need (glyph? >>= font.within?) .unknownGlyph

-- The number and the name of the glyph that is asked for.
def resolve (font : Font) (ref : GlyphRef) : Except DecodeError (UInt16 × String) := do
  let glyph ← font.glyphIndex ref
  return (glyph, ← font.glyphName glyph)

end Font

end PdfGraphics
