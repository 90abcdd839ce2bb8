import PdfGraphics.Font.Reader
import PdfGraphics.Proofs.Cff.Trailing
/-!
Bytes behind a font.

Every part of a font is found from the front of the buffer or by an offset into it, and is read from
bytes that are there. So the parts of a font are what they are whatever follows it.
-/

namespace PdfGraphics.Font

variable {buffer : List UInt8}

theorem readHeader_append {header : Header} (h : readHeader buffer = .ok header)
    (after : List UInt8) : readHeader (buffer ++ after) = .ok header := by
  unfold readHeader at h
  split at h
  case h_1 major minor size offsetSize rest =>
    split at h
    case isTrue hv =>
      have ⟨hm, hs, ho, ho', hl⟩ := hv
      have hl' : size.toNat ≤ (major :: minor :: size :: offsetSize :: (rest ++ after)).length := by
        simp only [List.length_cons, List.length_append] at hl ⊢
        omega
      rw [List.cons_append, List.cons_append, List.cons_append, List.cons_append, readHeader,
        if_pos ⟨hm, hs, ho, ho', hl'⟩]
      exact h
    case isFalse => cases h
  case h_2 => cases h

theorem readPrivate_append {range : Option (Nat × Nat)} {found : Cff.PrivateDict × Cff.Index}
    (h : readPrivate buffer range = .ok found) (after : List UInt8) :
    readPrivate (buffer ++ after) range = .ok found := by
  cases range with
  | none       => exact h
  | some range =>
    simp only [readPrivate, bind_eq_ok] at h ⊢
    have ⟨data, hd, entries, he, dict, hp, h⟩ := h
    have hd := Bytes.slice?_append (need_eq_ok.mp hd) after
    refine ⟨data, need_eq_ok.mpr hd, entries, he, dict, hp, ?_⟩
    split at h
    case h_1 => exact h
    case h_2 =>
      have ⟨subrs, hs, h⟩ := bind_eq_ok.mp h
      exact bind_eq_ok.mpr ⟨subrs, Cff.Index.read_append hs after, h⟩

-- A longer buffer gives the very same font, down to the bytes and the place of each entry of its
-- INDEXes. What a font answers and what a session decodes are computed from the font alone, so
-- neither can tell the buffers apart.
theorem read_trailing {font : Font} (h : read buffer = .ok font) (after : List UInt8) :
    read (buffer ++ after) = .ok font := by
  simp only [read, bind_eq_ok] at h ⊢
  have ⟨header, hh, names, hn, tops, ht, data, hd, entries, he, top, htop, strings, hs, globalSubrs,
    hg, offset, ho, charstrings, hc, h⟩ := h
  refine ⟨header, readHeader_append hh after, names, Cff.Index.read_append hn after,
    tops, Cff.Index.read_append ht after, data, hd, entries, he, top, htop,
    strings, Cff.Index.read_append hs after, globalSubrs, Cff.Index.read_append hg after,
    offset, ho, charstrings, Cff.Index.read_append hc after, ?_⟩
  split at h
  case isTrue => cases h
  case isFalse h₀ =>
    rw [if_neg h₀]
    simp only [bind_eq_ok] at h ⊢
    have ⟨found, hp, charset, hcs, encoding, henc, h⟩ := h
    exact ⟨found, readPrivate_append hp after, charset, Cff.Charset.read_append hcs after,
      encoding, Cff.Encoding.read_append henc after, h⟩

-- All parts of this font are stored in it, and the local subroutines are last.
def packedFont : List UInt8 :=
  [1, 0, 4, 1] ++ [0, 0] ++
  [0, 1, 1, 1, 10, 171, 15, 174, 16, 163, 17, 141, 177, 18] ++ [0, 0] ++ [0, 0] ++
  [0, 2, 1, 1, 2, 3, 14, 14] ++ [0, 0, 1] ++ [0, 1, 65] ++ [141, 19] ++ [0, 1, 1, 1, 2, 11]

theorem read_trailing_packedFont :
    ∃ font, read packedFont = .ok font ∧ font.localSubrs.count = 1 ∧
      read (packedFont ++ [0, 255]) = .ok font := by
  have hc : (read packedFont).toOption.map (fun font => font.localSubrs.count) = some 1 := by
    decide +kernel
  cases hr : read packedFont with
  | error e => simp [hr, Except.toOption] at hc
  | ok font => exact ⟨font, rfl, by simpa [hr, Except.toOption] using hc, read_trailing hr [0, 255]⟩

end PdfGraphics.Font
