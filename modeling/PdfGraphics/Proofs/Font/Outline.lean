import Mathlib.Control.Monad.Basic
import PdfGraphics.Proofs.Charstring.Path
import PdfGraphics.Proofs.Font.History
/-!
The outlines that a font hands out.

They are well formed, whether their glyphs are built in full or in part, composed from others, taken
from the cache, or stand for a glyph that the font does not have.
-/

namespace PdfGraphics.Font

variable {font : Font} {limits : Charstring.Limits}

theorem wellFormed_drawing (glyph : UInt16) :
    (font.drawing limits glyph).1.outline.WellFormed := by
  simp only [drawing]
  split
  case h_1 => exact Charstring.wellFormed_run _ _
  case h_2 => exact .empty

theorem wellFormed_component {code : UInt8} {outline : Outline Float32}
    (h : font.component limits code = .ok outline) : outline.WellFormed := by
  simp only [component, bind, Except.bind] at h
  split at h
  case h_1 => simp at h
  case h_2 glyph _ =>
    have hd := @wellFormed_drawing font limits glyph
    split at h <;> rename_i he <;> simp only [he] at hd
    case h_1 => cases h
    case h_2 => cases h; exact hd
    case h_3 => cases h

theorem wellFormed_compose {own outline : Outline Float32} {a : Charstring.Accented}
    (h : font.compose limits own a = .ok outline) (ho : own.WellFormed) : outline.WellFormed := by
  simp only [compose, bind, Except.bind] at h
  split at h
  case h_1 => simp at h
  case h_2 base hb =>
    split at h
    case h_1 => simp at h
    case h_2 accent ha =>
      cases h
      exact (ho.append (wellFormed_component hb)).append (wellFormed_component ha)

theorem wellFormed_build (glyph : UInt16) (name : String) :
    (font.build limits glyph name).1.outline.WellFormed := by
  have hd := @wellFormed_drawing font limits glyph
  simp only [build]
  split
  case h_1 => exact hd
  case h_2 => exact hd
  case h_3 =>
    split
    case h_1 hc => exact wellFormed_compose hc hd
    case h_2    => exact hd

namespace Session

variable {s : Session}

-- All glyphs that are kept have well-formed outlines.
def WellFormed (s : Session) : Prop :=
  ∀ (name : String) (h : Handle), s.cache[name]? = some h → h.glyph.outline.WellFormed

namespace WellFormed

theorem keep (h : s.WellFormed) {handle : Handle} (hh : handle.glyph.outline.WellFormed) :
    (s.keep handle).WellFormed := by
  intro name h' hn
  simp only [Session.keep, Std.HashMap.getElem?_insert] at hn
  split at hn
  case isTrue  => cases hn; exact hh
  case isFalse => exact h _ _ hn

theorem obtain (h : s.WellFormed) (glyph : UInt16) (name : String) :
    (s.obtain glyph name).1.1.glyph.outline.WellFormed ∧ (s.obtain glyph name).2.WellFormed := by
  have hb := @wellFormed_build s.font s.limits glyph name
  simp only [Session.obtain]
  split
  case h_1 handle hc => exact ⟨h _ _ hc, h⟩
  case h_2 =>
    split
    case h_1 => exact ⟨hb, keep h hb⟩
    case h_2 => exact ⟨hb, h⟩

theorem decode (h : s.WellFormed) (ref : GlyphRef) :
    (∀ handle, (s.decode ref).1 = .ok handle → handle.glyph.outline.WellFormed) ∧
      (s.decode ref).2.WellFormed := by
  rw [decode_eq]
  split
  case h_1 => exact ⟨nofun, h⟩
  case h_2 glyph name _ =>
    refine ⟨fun handle hh => ?_, (h.obtain glyph name).right⟩
    cases he : (s.obtain glyph name).1.2 <;> simp [he] at hh
    exact hh ▸ (h.obtain glyph name).left

theorem decodeLossy (h : s.WellFormed) (ref : GlyphRef) :
    (s.decodeLossy ref).1.1.glyph.outline.WellFormed ∧ (s.decodeLossy ref).2.WellFormed := by
  simp only [Session.decodeLossy]
  split
  case h_1 => exact ⟨.empty, h⟩
  case h_2 => exact h.obtain _ _

theorem serve (h : s.WellFormed) (r : Request) : (s.serve r).WellFormed := by
  cases r with
  | decode ref      => exact (h.decode ref).right
  | decodeLossy ref => exact (h.decodeLossy ref).right
  | withLimits      => exact h

theorem after (font : Font) (requests : List Request) : (after font requests).WellFormed :=
  after_preserves (fun _ r h => h.serve r) (by simp [WellFormed]) requests

end WellFormed

-- Whatever was asked of a font before, and under whatever limits, it hands out well-formed outlines.
theorem outline_wellFormed (font : Font) (requests : List Request) (ref : GlyphRef) :
    (∀ handle, ((after font requests).decode ref).1 = .ok handle →
      handle.glyph.outline.WellFormed) ∧
    ((after font requests).decodeLossy ref).1.1.glyph.outline.WellFormed :=
  have h := WellFormed.after font requests
  ⟨(h.decode ref).left, (h.decodeLossy ref).left⟩

-- The only glyph of this font draws a line without a move, and leaves it open.
def lineFont : Font where
  header := ⟨1, 0, 4, 1⟩
  names := {}
  top := { fontBox := .replicate 4 0 }
  strings := {}
  globalSubrs := {}
  charstrings := { entries := #[(0, [140, 140, 5])] }
  privateDict := {}
  localSubrs := {}
  charset := .isoAdobe
  encoding := .standard

theorem outline_wellFormed_lineFont :
    ∃ handle, ((after lineFont []).decode (.index 0)).1 = .ok handle ∧
      handle.glyph.outline.ops = [.moveTo ⟨0, 0⟩, .lineTo ⟨1, 1⟩, .close] ∧
      handle.glyph.outline.WellFormed := by
  have hr : lineFont.resolve (.index 0) = .ok (0, ".notdef") := by decide +kernel
  have hb : (lineFont.build {} 0 ".notdef").2 = none := by decide +kernel
  have hd : ((after lineFont []).decode (.index 0)).1 =
      .ok ⟨0, (lineFont.build {} 0 ".notdef").1⟩ := by
    simp [after, decode, obtain, issue, keep, hr, hb]
  exact ⟨_, hd, by decide +kernel, (outline_wellFormed lineFont [] (.index 0)).left _ hd⟩

end Session

end PdfGraphics.Font
