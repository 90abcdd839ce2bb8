import PdfGraphics.Font.Session
/-!
Sessions with a history.

A session serves requests one after the other. What each of them keeps holds after any number.
-/

namespace PdfGraphics.Font

inductive Request
  | decode (ref : GlyphRef)
  | decodeLossy (ref : GlyphRef)
  | withLimits (limits : Charstring.Limits)
deriving DecidableEq

-- The glyph that a request asks for.
def Request.ref? : Request → Option GlyphRef
  | .decode ref | .decodeLossy ref => some ref
  | .withLimits _ => none

namespace Session

def serve (s : Session) : Request → Session
  | .decode ref => (s.decode ref).2
  | .decodeLossy ref => (s.decodeLossy ref).2
  | .withLimits limits => s.withLimits limits

-- The session of a font after these requests.
def after (font : Font) (requests : List Request) : Session :=
  requests.foldl serve { font }

theorem after_append (font : Font) (requests more : List Request) :
    after font (requests ++ more) = more.foldl serve (after font requests) :=
  List.foldl_append

theorem foldl_serve_preserves {P : Session → Prop} (hp : ∀ s r, P s → P (s.serve r)) {s : Session}
    (h : P s) (requests : List Request) : P (requests.foldl serve s) := by
  induction requests generalizing s with
  | nil            => exact h
  | cons r rest ih => exact ih (hp _ _ h)

theorem after_preserves {P : Session → Prop} (hp : ∀ s r, P s → P (s.serve r)) {font : Font}
    (h : P { font }) (requests : List Request) : P (after font requests) :=
  foldl_serve_preserves hp h requests

-- A request that needs a glyph does to the session what obtaining the glyph does to it.
theorem decode_eq (s : Session) (ref : GlyphRef) :
    s.decode ref =
      match s.font.resolve ref with
      | .error e => (.error e, s)
      | .ok (glyph, name) =>
        ((s.obtain glyph name).1.2.elim (.ok (s.obtain glyph name).1.1) .error,
          (s.obtain glyph name).2) := by
  cases hr : s.font.resolve ref with
  | error e  => simp only [decode, hr]
  | ok found =>
    simp only [decode, hr]
    split <;> rename_i ho <;> simp [ho]

end Session

end PdfGraphics.Font
