import PdfGraphics.Font.Glyph
import Std.Data.HashMap
/-!
Decoding the glyphs of one font, one after the other.

A glyph that was built without an error is kept under its name, and every later request for that
name gets the same object. A partial glyph is not kept.
-/

namespace PdfGraphics.Font

-- A glyph, and the number that tells it from other objects of its session.
structure Handle where
  id : Nat
  glyph : Glyph

structure Session where
  font : Font
  limits : Charstring.Limits := {}
  -- The glyphs that are kept, by their names.
  cache : Std.HashMap String Handle := {}
  -- How many objects were made.
  issued : Nat := 0

namespace Session

-- Sets the limits for the glyphs that are still to be built.
def withLimits (s : Session) (limits : Charstring.Limits) : Session :=
  { s with limits }

-- Gives a glyph a number of its own.
def issue (s : Session) (glyph : Glyph) : Handle × Session :=
  (⟨s.issued, glyph⟩, { s with issued := s.issued + 1 })

def keep (s : Session) (h : Handle) : Session :=
  { s with cache := s.cache.insert h.glyph.name h }

-- The glyph with this number and name, from the cache or newly built.
def obtain (s : Session) (glyph : UInt16) (name : String) :
    (Handle × Option DecodeError) × Session :=
  match s.cache[name]? with
  | some h => ((h, none), s)
  | none =>
    let (built, error) := s.font.build s.limits glyph name
    let (h, s) := s.issue built
    match error with
    | none => ((h, none), s.keep h)
    | some e => ((h, some e), s)

-- Decodes a glyph, or says why it cannot be decoded in full.
def decode (s : Session) (ref : GlyphRef) : Except DecodeError Handle × Session :=
  match s.font.resolve ref with
  | .error e => (.error e, s)
  | .ok (glyph, name) =>
    match s.obtain glyph name with
    | ((h, none), s) => (.ok h, s)
    | ((_, some e), s) => (.error e, s)

-- Decodes a glyph as far as that is possible.
def decodeLossy (s : Session) (ref : GlyphRef) : (Handle × Option DecodeError) × Session :=
  match s.font.resolve ref with
  | .error e =>
    let (h, s) := s.issue s.font.placeholder
    ((h, some e), s)
  | .ok (glyph, name) => s.obtain glyph name

end Session

end PdfGraphics.Font
