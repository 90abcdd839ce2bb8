import PdfGraphics.Dump
import PdfGraphics.Proofs.Font.Cache
import PdfGraphics.Proofs.Font.Names
/-!
Listings of glyphs that are asked for by their names.

All of them are decoded in one session and share its cache. Still, each block is what a listing of
its name alone would show: a name finds a glyph of that very name, so what is kept under a name was
built for the same glyph that the name finds in a new session.
-/

namespace PdfGraphics

variable {font : Font} {glyph : UInt16} {name found : String} {h : Font.Handle}
  {e : Option DecodeError}

namespace Font

namespace Session

variable {s s' : Session}

-- Under each name, the session of this font keeps what it would build for that name.
structure Faithful (font : Font) (limits : Charstring.Limits) (s : Session) : Prop where
  font_eq : s.font = font
  limits_eq : s.limits = limits
  entry : ∀ name h, s.cache[name]? = some h → ∃ glyph,
    font.resolve (.name name) = .ok (glyph, name) ∧
    font.build limits glyph name = (h.glyph, none)

namespace Faithful

variable {limits : Charstring.Limits}

theorem obtains (f : s.Faithful font limits)
    (hr : font.resolve (.name name) = .ok (glyph, name)) (o : Obtains s glyph name h e s') :
    s'.Faithful font limits := by
  refine ⟨o.font_eq.trans f.font_eq, o.limits_eq.trans f.limits_eq, fun name' h' hc => ?_⟩
  cases o with
  | cached _   => exact f.entry _ _ hc
  | failed _ _ => exact f.entry _ _ hc
  | built ha hb =>
    rw [Std.HashMap.getElem?_insert] at hc
    split at hc
    case isFalse => exact f.entry _ _ hc
    case isTrue he =>
      obtain rfl := eq_of_beq he
      cases hc
      exact ⟨glyph, hr, f.font_eq ▸ f.limits_eq ▸ hb⟩

end Faithful

end Session

end Font

namespace Dump

end Dump

end PdfGraphics
