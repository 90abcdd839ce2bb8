import Mathlib.Control.Monad.Basic
import PdfGraphics.Font.Reader
import PdfGraphics.Proofs.Cff.Charset.Lookup
import PdfGraphics.Proofs.Cff.StandardString
/-!
Looking up glyphs by their names.

A name is looked up through the first identifier that has it as its string, and the first glyph of
that identifier. Glyphs that have the name from a later identifier are not looked for.
-/

namespace PdfGraphics

theorem Text.ofUtf8?_utf8 (s : String) : Text.ofUtf8? (Text.utf8 s) = some s := by
  simp only [ofUtf8?, utf8, String.fromUTF8?, Array.toArray_toList, String.toUTF8_eq_toByteArray,
    dif_pos s.isValidUTF8]
  rfl

theorem Text.ofUtf8?_eq_some {bytes : List UInt8} {s : String} :
    Text.ofUtf8? bytes = some s ↔ bytes = Text.utf8 s := by
  constructor
  · intro h
    simp only [ofUtf8?, String.fromUTF8?] at h
    split at h
    case isTrue hv =>
      obtain rfl := Option.some.inj h
      rfl
    case isFalse => cases h
  · rintro rfl
    exact ofUtf8?_utf8 s

namespace Font

variable {font : Font} {glyph sid : UInt16} {s : String}

-- The string that the font stores for an identifier behind the standard ones.
theorem stringOfSid_stored (hs : Cff.standardStrings[sid.toNat]? = none) :
    font.stringOfSid sid = .ok s ↔
      font.strings.get? (sid.toNat - Cff.standardStrings.size) = some (Text.utf8 s) := by
  unfold stringOfSid
  rw [hs]
  simp only [need_eq_ok, Option.bind_eq_bind, Option.bind_eq_some_iff, Text.ofUtf8?_eq_some]
  simp

theorem size_standardStrings : Cff.standardStrings.size = 391 := by
  decide +kernel

theorem stringOfSid_standard (hs : Cff.standardStrings[sid.toNat]? = some s) :
    font.stringOfSid sid = .ok s := by
  unfold stringOfSid
  rw [hs]

theorem stringOfSid_of_sidOfString? (h : font.sidOfString? s = some sid) :
    font.stringOfSid sid = .ok s := by
  unfold sidOfString? at h
  split at h
  case h_1 i hi =>
    exact stringOfSid_standard (word16?_eq_some.mp h ▸ getElem?_of_idxOf? hi)
  case h_2 =>
    have ⟨i, hi, hw⟩ := Option.bind_eq_some_iff.mp h
    have hw := word16?_eq_some.mp hw
    have ⟨hl, he, _⟩ := Array.findIdx?_eq_some_iff_getElem.mp hi
    refine (stringOfSid_stored (Array.getElem?_eq_none (by omega))).mpr ?_
    rw [show sid.toNat - Cff.standardStrings.size = i by omega, Cff.Index.get?,
      Array.getElem?_eq_getElem hl]
    exact congrArg some (eq_of_beq he)

-- The identifier that is found is the first with its string.
theorem exists_sidOfString?_le (h : font.stringOfSid sid = .ok s) :
    ∃ first, font.sidOfString? s = some first ∧ first ≤ sid := by
  have hlt := sid.toNat_lt
  simp only [UInt16.le_iff_toNat_le]
  unfold sidOfString?
  cases hs : Cff.standardStrings[sid.toNat]? with
  | some standard =>
    obtain rfl : standard = s := Except.ok.inj ((stringOfSid_standard hs).symm.trans h)
    have ⟨i, hi, hl⟩ := exists_idxOf?_le hs
    have ⟨first, hw, hf⟩ := exists_word16? (show i < 65536 by omega)
    rw [hi]
    exact ⟨first, hw, by omega⟩
  | none =>
    have hsize := Array.getElem?_eq_none_iff.mp hs
    split
    case h_1 i hi =>
      have hl := (Array.getElem?_eq_some_iff.mp (getElem?_of_idxOf? hi)).1
      have ⟨first, hw, hf⟩ := exists_word16? (show i < 65536 by omega)
      exact ⟨first, hw, by omega⟩
    case h_2 =>
      have ⟨entry, hk, he⟩ := Option.map_eq_some_iff.mp ((stringOfSid_stored hs).mp h)
      have ⟨i, hi, hl⟩ := exists_findIdx?_le (p := (·.2 == Text.utf8 s)) hk (beq_iff_eq.mpr he)
      have ⟨first, hw, hf⟩ := exists_word16? (show i + Cff.standardStrings.size < 65536 by omega)
      rw [hi, Option.bind_some]
      exact ⟨first, hw, by omega⟩

theorem sidOfString?_first (font : Font) (s : String) :
    (∀ sid, font.sidOfString? s = some sid ↔
      font.stringOfSid sid = .ok s ∧ ∀ sid' < sid, font.stringOfSid sid' ≠ .ok s) ∧
    (font.sidOfString? s = none ↔ ∀ sid, font.stringOfSid sid ≠ .ok s) :=
  finds_first (fun _ => stringOfSid_of_sidOfString?) fun _ => exists_sidOfString?_le

theorem isLeast_sidOfString? (h : font.sidOfString? s = some sid) :
    IsLeast {sid | font.stringOfSid sid = .ok s} sid :=
  isLeast_iff.mpr (((sidOfString?_first font s).left sid).mp h)

-- A standard string is found under its own number, whatever the font stores.
theorem sidOfString?_standard {i : Nat} (hi : Cff.standardStrings[i]? = some s) :
    font.sidOfString? s = word16? i := by
  have ⟨j, hj, _⟩ := exists_idxOf?_le hi
  obtain rfl := Cff.eq_of_standardStrings (getElem?_of_idxOf? hj) hi
  simp only [sidOfString?, hj]

-- The identifier of a string is the first that has it, also where the font stores a string twice,
-- stores a standard string, stores bytes that are no text, or stores more strings than there are
-- identifiers. There is none just where no identifier has the string. The standard strings are all
-- different, so that any table of them answers the same.
theorem sidOfString?_inverts (font : Font) (s : String) :
    (∀ sid, font.sidOfString? s = some sid ↔
      font.stringOfSid sid = .ok s ∧ ∀ sid' < sid, font.stringOfSid sid' ≠ .ok s) ∧
    (font.sidOfString? s = none ↔ ∀ sid, font.stringOfSid sid ≠ .ok s) ∧
    ∀ i : Nat, Cff.standardStrings[i]? = some s →
      ∀ sid, font.sidOfString? s = some sid ↔ i = sid.toNat := by
  have ⟨hfound, hnone⟩ := sidOfString?_first font s
  refine ⟨hfound, hnone, fun i hi sid => ?_⟩
  rw [sidOfString?_standard hi, word16?_eq_some]

theorem glyphName_eq_ok :
    font.glyphName glyph = .ok s ↔ glyph.toNat < font.glyphCount ∧
      ∃ sid, font.charset.sidOfGlyph? glyph = some sid ∧ font.stringOfSid sid = .ok s := by
  unfold glyphName
  split
  case isTrue hl  => simp [hl, bind_eq_ok, need_eq_ok]
  case isFalse hl => simp [hl]

theorem error_of_glyphIndex {ref : GlyphRef} {e : DecodeError}
    (h : font.glyphIndex ref = .error e) : e = .unknownGlyph :=
  (need_eq_error.mp h).right.symm

-- A name is looked up through its first identifier.
theorem glyphIndex_name_eq_ok (hs : font.sidOfString? s = some sid) :
    font.glyphIndex (.name s) = .ok glyph ↔
      font.charset.glyphOfSid? sid = some glyph ∧ glyph.toNat < font.glyphCount := by
  simp only [glyphIndex, need_eq_ok, glyphOfName?, hs, Option.bind_eq_bind, Option.bind_some,
    Option.bind_eq_some_iff, within?, Option.ite_none_right_eq_some, Option.some.injEq]
  constructor
  · rintro ⟨_, hg, hl, rfl⟩
    exact ⟨hg, hl⟩
  · rintro ⟨hg, hl⟩
    exact ⟨_, hg, hl, rfl⟩

theorem isLeast_glyphIndex_name (hs : font.sidOfString? s = some sid)
    (h : font.glyphIndex (.name s) = .ok glyph) :
    IsLeast {g | g.toNat < font.glyphCount ∧ font.charset.sidOfGlyph? g = some sid} glyph := by
  have ⟨hg, hl⟩ := (glyphIndex_name_eq_ok hs).mp h
  have least := Cff.Charset.glyphOfSid?_eq_some.mp hg
  exact ⟨⟨hl, least.left⟩, fun g hg => least.right hg.right⟩

theorem exists_glyphIndex_name (hs : font.sidOfString? s = some sid)
    (hl : glyph.toNat < font.glyphCount) (hg : font.charset.sidOfGlyph? glyph = some sid) :
    ∃ found, font.glyphIndex (.name s) = .ok found := by
  have ⟨first, hf, hle⟩ := Cff.Charset.exists_glyphOfSid?_le hg
  have hlt := Nat.lt_of_le_of_lt (UInt16.le_iff_toNat_le.mp hle) hl
  exact ⟨first, (glyphIndex_name_eq_ok hs).mpr ⟨hf, hlt⟩⟩

-- Looking up the name of a glyph finds the first glyph that has the first identifier of the name,
-- and that one has the name, too. It finds nothing just where no glyph of the font has that
-- identifier.
theorem glyphIndex_glyphName (font : Font) {glyph : UInt16} {s : String}
    (h : font.glyphName glyph = .ok s) :
    ∃ sid, IsLeast {sid | font.stringOfSid sid = .ok s} sid ∧
      (∀ found, font.glyphIndex (.name s) = .ok found →
        font.glyphName found = .ok s ∧
        IsLeast {g | g.toNat < font.glyphCount ∧ font.charset.sidOfGlyph? g = some sid} found) ∧
      (font.glyphIndex (.name s) = .error .unknownGlyph ↔
        ∀ g : UInt16, g.toNat < font.glyphCount → font.charset.sidOfGlyph? g ≠ some sid) ∧
      ∀ g : UInt16, g.toNat < font.glyphCount → font.charset.sidOfGlyph? g = some sid →
        ∃ found, font.glyphIndex (.name s) = .ok found ∧ font.glyphName found = .ok s := by
  have ⟨_, _, _, hn⟩ := glyphName_eq_ok.mp h
  have ⟨sid, hs, _⟩ := exists_sidOfString?_le hn
  have named (found : UInt16) (hf : font.glyphIndex (.name s) = .ok found) :
      font.glyphName found = .ok s := by
    have ⟨⟨hl, hg⟩, _⟩ := isLeast_glyphIndex_name hs hf
    exact glyphName_eq_ok.mpr ⟨hl, sid, hg, stringOfSid_of_sidOfString? hs⟩
  refine ⟨sid, isLeast_sidOfString? hs,
    fun found hf => ⟨named found hf, isLeast_glyphIndex_name hs hf⟩, ⟨fun he g hl hg => ?_, ?_⟩, ?_⟩
  case _ =>
    have ⟨found, hf⟩ := exists_glyphIndex_name hs hl hg
    exact nomatch he.symm.trans hf
  case _ =>
    intro none
    cases hi : font.glyphIndex (.name s) with
    | error e  => rw [error_of_glyphIndex hi]
    | ok found =>
      have ⟨⟨hl, hg⟩, _⟩ := isLeast_glyphIndex_name hs hi
      exact absurd hg (none found hl)
  case _ =>
    intro g hl hg
    have ⟨found, hf⟩ := exists_glyphIndex_name hs hl hg
    exact ⟨found, hf, named found hf⟩

-- The font stores the string `A`, which is a standard string. Its charset names the second glyph by
-- the stored one, and the third glyph `space`.
def restated : List UInt8 :=
  [1, 0, 4, 1] ++ [0, 0] ++ [0, 1, 1, 1, 5, 172, 15, 162, 17] ++ [0, 1, 1, 1, 2, 65] ++ [0, 0] ++
  [0, 3, 1, 1, 2, 3, 4, 14, 14, 14] ++ [0, 1, 135, 0, 1]

theorem read_restated :
    ∃ font, read restated = .ok font ∧ font.glyphName 1 = .ok "A" ∧ font.glyphName 2 = .ok "space" ∧
      font.charset.sidOfGlyph? 2 = some 1 ∧ font.sidOfString? "space" = some 1 ∧
      font.glyphIndex (.name "A") = .error .unknownGlyph := by
  have ⟨font, hr, hl, hc, ha, hn, hs, hi⟩ := exists_of_map_decide (x := read restated)
    (p := fun font => font.glyphCount = 3 ∧ font.charset = .listed #[391, 1] ∧
      font.strings.get? 0 = some (Text.utf8 "A") ∧ font.glyphName 2 = .ok "space" ∧
      font.sidOfString? "space" = some 1 ∧ font.glyphIndex (.name "A") = .error .unknownGlyph)
    (by decide +kernel)
  have stored : Cff.standardStrings[(391 : UInt16).toNat]? = none :=
    Array.getElem?_eq_none (Nat.le_of_eq size_standardStrings)
  have hna : font.stringOfSid 391 = .ok "A" := by
    rw [stringOfSid_stored stored, size_standardStrings]
    exact ha
  refine ⟨font, hr, glyphName_eq_ok.mpr ⟨?_, 391, ?_, hna⟩, hn, ?_, hs, hi⟩
  case _ => rw [hl]; decide
  case _ => rw [hc]; rfl
  case _ => rw [hc]; rfl

theorem glyphIndex_glyphName_restated :
    ∃ font, read restated = .ok font ∧ font.glyphName 2 = .ok "space" ∧
      font.charset.sidOfGlyph? 2 = some 1 ∧
      ∃ found, font.glyphIndex (.name "space") = .ok found ∧
        font.glyphName found = .ok "space" := by
  have ⟨font, hr, _, hn, hg, hs, _⟩ := read_restated
  have ⟨sid, least, _, _, found⟩ := glyphIndex_glyphName font hn
  have least' := isLeast_sidOfString? hs
  obtain rfl := UInt16.le_antisymm (least.right least'.left) (least'.right least.left)
  exact ⟨font, hr, hn, hg, found 2 (glyphName_eq_ok.mp hn).left hg⟩

-- The second glyph is named `A`, but that name is looked up by the standard identifier.
theorem restated_name_unknown :
    ∃ font, read restated = .ok font ∧ (1 : UInt16).toNat < font.glyphCount ∧
      font.glyphName 1 = .ok "A" ∧ font.glyphIndex (.name "A") = .error .unknownGlyph := by
  have ⟨font, hr, hn, _, _, _, hi⟩ := read_restated
  exact ⟨font, hr, (glyphName_eq_ok.mp hn).left, hn, hi⟩

end Font

end PdfGraphics
