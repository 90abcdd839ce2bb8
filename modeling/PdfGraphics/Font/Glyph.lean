import PdfGraphics.Charstring.Machine
import PdfGraphics.Font.Basic
/-!
Building a glyph: running its charstring, and composing it from two others where that is asked for.

A composition is made from both of its parts or not at all, and no part may ask for one itself.
-/

namespace PdfGraphics

structure Glyph where
  name : String
  outline : Outline Float32
  advanceWidth : Float32
deriving DecidableEq

namespace Font

def context (font : Font) (limits : Charstring.Limits) : Charstring.Context where
  globalSubrs := font.globalSubrs
  localSubrs := font.localSubrs
  defaultWidth := font.privateDict.defaultWidth
  nominalWidth := font.privateDict.nominalWidth
  limits := limits

-- Runs the charstring of a glyph.
def drawing (font : Font) (limits : Charstring.Limits) (glyph : UInt16) :
    Charstring.Drawing × Option DecodeError :=
  match font.charstrings.get? glyph.toNat with
  | some code => Charstring.run (font.context limits) code
  | none => (⟨.empty, font.privateDict.defaultWidth, none⟩, some .unknownGlyph)

-- The glyph that Standard Encoding gives to a code.
def standardGlyph? (font : Font) (code : UInt8) : Option UInt16 :=
  Cff.Encoding.glyphInTable? Cff.Encoding.standardTable font.charset code >>= font.within?

-- The outline of one part of a composition.
def component (font : Font) (limits : Charstring.Limits) (code : UInt8) :
    Except DecodeError (Outline Float32) := do
  let glyph ← need (font.standardGlyph? code) .unknownGlyph
  match font.drawing limits glyph with
  | (_, some e) => throw e
  | ({ outline, accented := none, .. }, none) => return outline
  | ({ accented := some _, .. }, none) => throw (.recursionLimitExceeded 2)

-- Draws the base after an outline, and then the accent in its place.
def compose (font : Font) (limits : Charstring.Limits) (outline : Outline Float32)
    (a : Charstring.Accented) : Except DecodeError (Outline Float32) := do
  let base ← font.component limits a.base
  let accent ← font.component limits a.accent
  return (outline.append base .identity).append accent (.shift a.adx a.ady)

-- Builds a glyph. With an error comes what could be drawn.
def build (font : Font) (limits : Charstring.Limits) (glyph : UInt16) (name : String) :
    Glyph × Option DecodeError :=
  let (drawing, error) := font.drawing limits glyph
  let own : Glyph := ⟨name, drawing.outline, drawing.width⟩
  match error, drawing.accented with
  | some e, _ => (own, some e)
  | none, none => (own, none)
  | none, some a =>
    match font.compose limits own.outline a with
    | .ok outline => ({ own with outline }, none)
    | .error e => (own, some e)

-- What stands for a glyph that the font does not have.
def placeholder (font : Font) : Glyph :=
  ⟨".notdef", .empty, font.privateDict.defaultWidth⟩

end Font

end PdfGraphics
