import PdfGraphics.Proofs.Cff.Charset.Lookup
import PdfGraphics.Proofs.Font.Budget
/-!
Glyphs that are composed of two others.

A composition is made of both its parts or not at all. A part is the outline of one charstring: one
that asks for a composition itself is refused, so that three runs are enough for any glyph, also for
glyphs that name themselves or one another.
-/

namespace PdfGraphics

variable {sid glyph : UInt16} {code : UInt8}

-- The identifier that a table of 256 gives to a code.
def Cff.Encoding.sidInTable? (table : Array UInt16) (code : UInt8) : Option UInt16 :=
  table[code.toNat]?.filter (· ≠ 0)

theorem Cff.Encoding.glyphInTable?_eq (table : Array UInt16) (charset : Charset) (code : UInt8) :
    glyphInTable? table charset code = sidInTable? table code >>= charset.glyphOfSid? := by
  unfold glyphInTable? sidInTable?
  split
  case h_1 h => rw [h]; rfl
  case h_2 h => rw [h]; rfl
  case h_3 sid hne h =>
    have hne : sid ≠ 0 := hne
    rw [h, Option.filter_some, if_pos (decide_eq_true hne)]
    rfl

namespace Font

variable {font : Font} {limits : Charstring.Limits} {name : String} {own : Outline Float32}
  {a : Charstring.Accented} {answer : Except DecodeError (Outline Float32)}

-- The first glyph of the font with an identifier.
def IsFirst (font : Font) (sid glyph : UInt16) : Prop :=
  IsLeast {g | g.toNat < font.glyphCount ∧ font.charset.sidOfGlyph? g = some sid} glyph

theorem isFirst_iff :
    font.IsFirst sid glyph ↔
      font.charset.glyphOfSid? sid = some glyph ∧ glyph.toNat < font.glyphCount := by
  rw [Cff.Charset.glyphOfSid?_eq_some]
  constructor
  case mp =>
    rintro ⟨⟨hl, hs⟩, least⟩
    refine ⟨⟨hs, fun g hg => ?_⟩, hl⟩
    by_cases hc : g.toNat < font.glyphCount
    case pos => exact least ⟨hc, hg⟩
    case neg => exact UInt16.le_iff_toNat_le.mpr (by omega)
  case mpr =>
    rintro ⟨⟨hs, least⟩, hl⟩
    exact ⟨⟨hl, hs⟩, fun g hg => least hg.right⟩

theorem exists_isFirst (hl : glyph.toNat < font.glyphCount)
    (hs : font.charset.sidOfGlyph? glyph = some sid) : ∃ first, font.IsFirst sid first := by
  have ⟨first, hf, hle⟩ := Cff.Charset.exists_glyphOfSid?_le hs
  have hle := UInt16.le_iff_toNat_le.mp hle
  exact ⟨first, isFirst_iff.mpr ⟨hf, by omega⟩⟩

theorem standardGlyph?_eq_some :
    font.standardGlyph? code = some glyph ↔
      ∃ sid, Cff.Encoding.sidInTable? Cff.Encoding.standardTable code = some sid ∧
        font.IsFirst sid glyph := by
  simp only [standardGlyph?, Cff.Encoding.glyphInTable?_eq, Option.bind_eq_bind, within?,
    Option.bind_eq_some_iff, Option.ite_none_right_eq_some, Option.some.injEq, isFirst_iff]
  constructor
  · rintro ⟨_, ⟨sid, ht, hg⟩, hl, rfl⟩
    exact ⟨sid, ht, hg, hl⟩
  · rintro ⟨sid, ht, hg, hl⟩
    exact ⟨glyph, ⟨sid, ht, hg⟩, hl, rfl⟩

-- A glyph of the font has a charstring.
theorem exists_charstring (hl : glyph.toNat < font.glyphCount) :
    ∃ charstring, font.charstrings.get? glyph.toNat = some charstring :=
  Option.isSome_iff_exists.mp (by simpa [Cff.Index.get?, glyphCount, Cff.Index.count] using hl)

-- The charstring that a code of Standard Encoding stands for.
inductive Codes (font : Font) (code : UInt8) (charstring : List UInt8) : Prop
  | intro {sid glyph : UInt16} :
    (Cff.Encoding.sidInTable? Cff.Encoding.standardTable code = some sid) →
    (font.IsFirst sid glyph) → (font.charstrings.get? glyph.toNat = some charstring) →
    Codes font code charstring

-- What comes of the part of a composition that has a code of Standard Encoding.
inductive Component (font : Font) (limits : Charstring.Limits) (code : UInt8) :
    Except DecodeError (Outline Float32) → Prop
  | uncoded :
    (Cff.Encoding.sidInTable? Cff.Encoding.standardTable code = none) →
    Component font limits code (.error .unknownGlyph)
  | absent {sid : UInt16} :
    (Cff.Encoding.sidInTable? Cff.Encoding.standardTable code = some sid) →
    (∀ g : UInt16, g.toNat < font.glyphCount → font.charset.sidOfGlyph? g ≠ some sid) →
    Component font limits code (.error .unknownGlyph)
  | failed {charstring : List UInt8} {d : Charstring.Drawing} {e : DecodeError} :
    (font.Codes code charstring) →
    (Charstring.run (font.context limits) charstring = (d, some e)) →
    Component font limits code (.error e)
  | nested {charstring : List UInt8} {d : Charstring.Drawing} {a : Charstring.Accented} :
    (font.Codes code charstring) →
    (Charstring.run (font.context limits) charstring = (d, none)) → (d.accented = some a) →
    Component font limits code (.error (.recursionLimitExceeded 2))
  | drawn {charstring : List UInt8} {d : Charstring.Drawing} :
    (font.Codes code charstring) →
    (Charstring.run (font.context limits) charstring = (d, none)) → (d.accented = none) →
    Component font limits code (.ok d.outline)

theorem codes_iff {charstring : List UInt8} :
    font.Codes code charstring ↔ ∃ glyph, font.standardGlyph? code = some glyph ∧
      font.charstrings.get? glyph.toNat = some charstring := by
  simp only [standardGlyph?_eq_some]
  constructor
  · rintro ⟨ht, hf, hc⟩
    exact ⟨_, ⟨_, ht, hf⟩, hc⟩
  · rintro ⟨_, ⟨_, ht, hf⟩, hc⟩
    exact ⟨ht, hf, hc⟩

theorem component_of_none (h : font.standardGlyph? code = none) :
    font.component limits code = .error .unknownGlyph := by
  simp [component, h, need, bind, Except.bind]

theorem component_of_codes {charstring : List UInt8} (h : font.Codes code charstring) :
    font.component limits code =
      match Charstring.run (font.context limits) charstring with
      | (_, some e) => .error e
      | ({ outline, accented := none, .. }, none) => .ok outline
      | ({ accented := some _, .. }, none) => .error (.recursionLimitExceeded 2) := by
  have ⟨glyph, hg, hc⟩ := codes_iff.mp h
  simp only [component, hg, need, Option.elim, bind, Except.bind, drawing, hc]
  rcases Charstring.run (font.context limits) charstring with ⟨⟨outline, width, accented⟩, error⟩
  cases error <;> cases accented <;> rfl

theorem component_component (font : Font) (limits : Charstring.Limits) (code : UInt8) :
    Component font limits code (font.component limits code) := by
  cases hg : font.standardGlyph? code with
  | none =>
    rw [component_of_none hg]
    cases hs : Cff.Encoding.sidInTable? Cff.Encoding.standardTable code with
    | none     => exact .uncoded hs
    | some sid =>
      refine .absent hs fun g hl hc => ?_
      have ⟨first, hf⟩ := exists_isFirst hl hc
      exact nomatch hg.symm.trans (standardGlyph?_eq_some.mpr ⟨sid, hs, hf⟩)
  | some glyph =>
    have ⟨sid, hs, hf⟩ := standardGlyph?_eq_some.mp hg
    have ⟨charstring, hc⟩ := exists_charstring hf.left.left
    have codes : font.Codes code charstring := ⟨hs, hf, hc⟩
    rw [component_of_codes codes]
    split
    case h_1 hd => exact .failed codes hd
    case h_2 hd => exact .drawn codes hd rfl
    case h_3 hd => exact .nested codes hd rfl

theorem component_eq (h : Component font limits code answer) :
    font.component limits code = answer := by
  cases h with
  | uncoded hs =>
    exact component_of_none (by simp [standardGlyph?, Cff.Encoding.glyphInTable?_eq, hs])
  | absent hs ha =>
    refine component_of_none (Option.eq_none_iff_forall_ne_some.mpr fun glyph hg => ?_)
    have ⟨sid, hs', hf⟩ := standardGlyph?_eq_some.mp hg
    cases hs.symm.trans hs'
    exact ha _ hf.left.left hf.left.right
  | failed codes hd => rw [component_of_codes codes, hd]
  | @nested _ d _ codes hd ha =>
    obtain ⟨_, _, accented⟩ := d
    obtain rfl : accented = _ := ha
    rw [component_of_codes codes, hd]
  | @drawn _ d codes hd ha =>
    obtain ⟨_, _, accented⟩ := d
    obtain rfl : accented = _ := ha
    rw [component_of_codes codes, hd]

-- A code comes to one thing only.
theorem component_iff :
    Component font limits code answer ↔ font.component limits code = answer :=
  ⟨component_eq, fun h => h ▸ component_component font limits code⟩

-- What comes of a composition over the glyph's own outline. Where both parts fail, the answer is the
-- error of the base.
inductive Composed (font : Font) (limits : Charstring.Limits) (own : Outline Float32)
    (a : Charstring.Accented) : Outline Float32 → Option DecodeError → Prop
  | whole {base accent : Outline Float32} :
    (Component font limits a.base (.ok base)) → (Component font limits a.accent (.ok accent)) →
    Composed font limits own a
      ⟨own.ops ++ base.ops.map (.transform .identity) ++
        accent.ops.map (.transform (.shift a.adx a.ady))⟩ none
  | noBase {e : DecodeError} :
    (Component font limits a.base (.error e)) → Composed font limits own a own (some e)
  | noAccent {base : Outline Float32} {e : DecodeError} :
    (Component font limits a.base (.ok base)) → (Component font limits a.accent (.error e)) →
    Composed font limits own a own (some e)

theorem composed_iff {outline : Outline Float32} {error : Option DecodeError} :
    Composed font limits own a outline error ↔
      match font.compose limits own a with
      | .ok composed => composed = outline ∧ error = none
      | .error e => own = outline ∧ error = some e := by
  simp only [compose, bind, Except.bind]
  constructor
  case mp =>
    rintro (⟨hb, ha⟩ | ⟨hb⟩ | ⟨hb, ha⟩)
    case whole    => rw [component_eq hb, component_eq ha]; exact ⟨rfl, rfl⟩
    case noBase   => simp [component_eq hb]
    case noAccent => simp [component_eq hb, component_eq ha]
  case mpr =>
    have hb := component_component font limits a.base
    have ha := component_component font limits a.accent
    cases heb : font.component limits a.base with
    | error e =>
      rintro ⟨rfl, rfl⟩
      exact .noBase (heb ▸ hb)
    | ok base =>
      cases hea : font.component limits a.accent with
      | error e =>
        rintro ⟨rfl, rfl⟩
        exact .noAccent (heb ▸ hb) (hea ▸ ha)
      | ok accent =>
        rintro ⟨rfl, rfl⟩
        exact .whole (heb ▸ hb) (hea ▸ ha)

theorem build_eq_compose {d : Charstring.Drawing} (hd : font.drawing limits glyph = (d, none))
    (ha : d.accented = some a) :
    font.build limits glyph name =
      match font.compose limits d.outline a with
      | .ok outline => (⟨name, outline, d.width⟩, none)
      | .error e => (⟨name, d.outline, d.width⟩, some e) := by
  cases hc : font.compose limits d.outline a <;> simp only [build, hd, ha, hc]

-- A glyph whose charstring asks for a composition keeps its width and its own outline, and gets the
-- outlines of both parts behind it, or of none. What it gets depends on nothing that is kept under
-- other names.
theorem build_accented {d : Charstring.Drawing} (hd : font.drawing limits glyph = (d, none))
    (ha : d.accented = some a) (name : String) :
    (font.build limits glyph name).1.name = name ∧
    (font.build limits glyph name).1.advanceWidth = d.width ∧
    (∀ outline error, Composed font limits d.outline a outline error ↔
      (font.build limits glyph name).1.outline = outline ∧
        (font.build limits glyph name).2 = error) ∧
    (∀ code, ∃! answer, Component font limits code answer) ∧
    (font.recordBuild limits glyph name).value = font.build limits glyph name ∧
    (font.recordBuild limits glyph name).runs.length ≤ 3 ∧
    ∀ (s : Session) (ref : GlyphRef), s.font = font → s.limits = limits →
      font.resolve ref = .ok (glyph, name) → s.cache[name]? = none →
      (s.decodeLossy ref).1.1.glyph = (font.build limits glyph name).1 ∧
        (s.decodeLossy ref).1.2 = (font.build limits glyph name).2 := by
  have hb := @build_eq_compose glyph font limits name a d hd ha
  refine ⟨build_name, ?_, fun outline error => ?_, fun code => ?_, value_recordBuild glyph name,
    (within_recordBuild glyph name).length_le, ?_⟩
  case _ =>
    rw [hb]
    cases font.compose limits d.outline a <;> rfl
  case _ =>
    rw [composed_iff, hb]
    cases font.compose limits d.outline a <;> simp [eq_comm]
  case _ => exact ⟨_, component_component font limits code, fun _ h => (component_eq h).symm⟩
  case _ =>
    rintro s ref rfl rfl hr hc
    have o := (Session.obtains s glyph name).eq_built hc
    rw [Session.decodeLossy_of_ok hr]
    exact (Prod.mk.inj o).imp Eq.symm Eq.symm

-- The letter draws a line to the right, and the accent one upwards. The last glyph overlays them.
def overlaid : List UInt8 :=
  [1, 0, 4, 1] ++ [0, 0] ++ [0, 1, 1, 1, 5, 183, 15, 158, 17] ++ [0, 0] ++ [0, 0] ++
  [0, 4, 1, 1, 2, 7, 12, 18] ++ [14] ++ [139, 22, 140, 6, 14] ++ [139, 4, 141, 7, 14] ++
  [144, 145, 204, 247, 86, 14] ++ [0, 0, 34, 0, 125, 0, 171]

theorem read_overlaid :
    ∃ font, read overlaid = .ok font ∧
      font.drawing {} 3 = (⟨.empty, 0, some ⟨5, 6, 65, 194⟩⟩, none) ∧
      font.component {} 65 = .ok ⟨[.moveTo ⟨0, 0⟩, .lineTo ⟨1, 0⟩, .close]⟩ ∧
      font.component {} 194 = .ok ⟨[.moveTo ⟨0, 0⟩, .lineTo ⟨0, 2⟩, .close]⟩ :=
  exists_of_map_decide (by decide +kernel)

theorem build_accented_overlaid :
    ∃ font, read overlaid = .ok font ∧
      font.drawing {} 3 = (⟨.empty, 0, some ⟨5, 6, 65, 194⟩⟩, none) ∧
      (font.build {} 3 "Aacute").1.advanceWidth = 0 ∧
      (font.build {} 3 "Aacute").1.outline = ⟨[.moveTo ⟨0, 0⟩, .lineTo ⟨1, 0⟩, .close,
        .moveTo ⟨5, 6⟩, .lineTo ⟨5, 8⟩, .close]⟩ ∧
      (font.build {} 3 "Aacute").2 = none := by
  have ⟨font, hr, hd, hb, ha⟩ := read_overlaid
  have ⟨_, hw, composed, _⟩ := build_accented hd rfl "Aacute"
  have ⟨ho, he⟩ := (composed _ _).mp (.whole (component_iff.mpr hb) (component_iff.mpr ha))
  exact ⟨font, hr, hd, hw, ho.trans (by decide +kernel), he⟩

end Font

end PdfGraphics
