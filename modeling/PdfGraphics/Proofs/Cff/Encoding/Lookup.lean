import PdfGraphics.Cff.Encoding
import PdfGraphics.Proofs.Cff.Charset.Lookup
/-!
Looking up the glyph of a code.

The runs of an encoding stand for a list of codes, and a code shows the glyph of its first place in
the list. Only a code that is not listed is looked for among the supplements, and the first of them
that has the code counts.
-/

namespace PdfGraphics

variable {α : Type} [BEq α] {a : α} {before after : List α}

theorem idxOf?_append (xs ys : List α) (a : α) :
    (xs ++ ys).idxOf? a = (xs.idxOf? a).or ((ys.idxOf? a).map (· + xs.length)) :=
  List.findIdx?_append

theorem idxOf?_of_first [LawfulBEq α] (h : a ∉ before) :
    (before ++ a :: after).idxOf? a = some before.length := by
  rw [idxOf?_append, List.idxOf?_eq_none_iff.mpr h, List.idxOf?_cons, if_pos BEq.rfl]
  simp

theorem idxOf?_range' (first count n : Nat) :
    (List.range' first count).idxOf? n =
      if first ≤ n ∧ n < first + count then some (n - first) else none := by
  split
  case isTrue h =>
    refine List.idxOf?_eq_some_iff.mpr ⟨?_, ?_, fun j hj => ?_⟩
    case _ => rw [List.length_range']; omega
    case _ => rw [List.getElem_range']; omega
    case _ => rw [List.getElem_range']; omega
  case isFalse h =>
    rw [List.idxOf?_eq_none_iff, List.mem_range'_1]
    exact h

namespace Cff.Encoding

variable {codes : List UInt8} {supplements : List Supplement} {charset : Charset} {code : UInt8}
  {shown : Option UInt16}

namespace Run

-- The codes that the runs name, which need not fit into 8 bits.
def writtenOut (runs : List Run) : List Nat :=
  runs.flatMap fun run => List.range' run.first.toNat (run.left.toNat + 1)

variable {run : Run} {runs : List Run}

theorem writtenOut_cons :
    writtenOut (run :: runs) =
      List.range' run.first.toNat (run.left.toNat + 1) ++ writtenOut runs := by
  simp [writtenOut]

theorem contains_iff :
    run.contains code ↔
      run.first.toNat ≤ code.toNat ∧ code.toNat < run.first.toNat + (run.left.toNat + 1) := by
  simp only [contains, Bool.and_eq_true, decide_eq_true_eq, UInt8.le_iff_toNat_le]
  omega

-- Walking over the runs comes to the same as a search in the list.
theorem glyphFrom?_eq (code : UInt8) (n : Nat) (runs : List Run) :
    glyphFrom? code n runs = ((writtenOut runs).idxOf? code.toNat).bind fun i => word16? (n + i) := by
  induction runs generalizing n with
  | nil              => rfl
  | cons run runs ih =>
    rw [glyphFrom?, writtenOut_cons, idxOf?_append, idxOf?_range', List.length_range']
    by_cases hc : run.contains code
    case pos => rw [if_pos hc, if_pos (contains_iff.mp hc), Option.some_or, Option.bind_some]
    case neg =>
      rw [if_neg hc, if_neg (hc ∘ contains_iff.mpr), ih, Option.none_or, Option.bind_map]
      congr 1
      funext i
      simp only [Function.comp_apply]
      congr 1
      omega

end Run

-- What a code shows, with the list of codes of glyphs 1, 2, 3, … and the supplements.
inductive Shows (codes : List UInt8) (supplements : List Supplement) (charset : Charset)
    (code : UInt8) : Option UInt16 → Prop
  | listed {before after : List UInt8} {glyph : UInt16} (h : codes = before ++ code :: after)
      (first : code ∉ before) (number : glyph.toNat = before.length + 1) :
      Shows codes supplements charset code (some glyph)
  | supplement {before after : List Supplement} {sid : UInt16} (unlisted : code ∉ codes)
      (h : supplements = before ++ ⟨code, sid⟩ :: after) (first : ∀ s ∈ before, s.code ≠ code) :
      Shows codes supplements charset code (charset.glyphOfSid? sid)
  | nothing (unlisted : code ∉ codes) (h : ∀ s ∈ supplements, s.code ≠ code) :
      Shows codes supplements charset code none

theorem glyph?_unlisted (h : code ∉ codes) :
    (listed codes supplements).glyph? charset code =
      glyphInSupplements? supplements charset code := by
  rw [glyph?, List.idxOf?_eq_none_iff.mpr h]
  rfl

theorem Shows.glyph?_eq (h : Shows codes supplements charset code shown) :
    (Encoding.listed codes supplements).glyph? charset code = shown := by
  cases h with
  | listed h first number               =>
    have hn := word16?_eq_some.mpr number.symm
    rw [glyph?, h, idxOf?_of_first first, Option.bind_some, hn, Option.some_or]
  | supplement unlisted h first         =>
    rw [glyph?_unlisted unlisted, glyphInSupplements?, h, List.find?_append,
      List.find?_eq_none.mpr (by simpa using first)]
    simp
  | nothing unlisted h                  =>
    rw [glyph?_unlisted unlisted, glyphInSupplements?, List.find?_eq_none.mpr (by simpa using h)]
    rfl

-- There is a glyph number for each code of a list that is not too long.
theorem exists_shows (hl : codes.length < 65535) (supplements : List Supplement)
    (charset : Charset) (code : UInt8) :
    ∃ shown, Shows codes supplements charset code shown := by
  by_cases hc : code ∈ codes
  case pos =>
    have ⟨before, after, h, first⟩ := List.eq_append_cons_of_mem hc
    rw [h, List.length_append, List.length_cons] at hl
    have ⟨glyph, _, number⟩ := exists_word16? (show before.length + 1 < 65536 by omega)
    exact ⟨some glyph, .listed h first number⟩
  case neg =>
    cases hs : supplements.find? (·.code = code) with
    | none   => exact ⟨none, .nothing hc (by simpa using hs)⟩
    | some s =>
      have ⟨he, before, after, h, first⟩ := List.find?_eq_some_iff_append.mp hs
      obtain rfl : s.code = code := by simpa using he
      exact ⟨charset.glyphOfSid? s.sid, .supplement hc h (by simpa using first)⟩

theorem glyph?_eq_iff_shows (hl : codes.length < 65535) :
    (listed codes supplements).glyph? charset code = shown ↔
      Shows codes supplements charset code shown := by
  refine ⟨fun h => ?_, Shows.glyph?_eq⟩
  have ⟨_, hs⟩ := exists_shows hl supplements charset code
  exact h ▸ hs.glyph?_eq ▸ hs

-- The encodings that give codes to glyphs, in a list or in runs that list them without a gap.
inductive Lists (codes : List UInt8) (supplements : List Supplement) : Encoding → Prop
  | listed : Lists codes supplements (listed codes supplements)
  | ranged {runs : List Run} (h : Run.writtenOut runs = codes.map UInt8.toNat) :
      Lists codes supplements (ranged runs supplements)

theorem Lists.glyph?_eq {encoding : Encoding} (h : Lists codes supplements encoding)
    (charset : Charset) (code : UInt8) :
    encoding.glyph? charset code = (Encoding.listed codes supplements).glyph? charset code := by
  cases h with
  | listed   => rfl
  | ranged h =>
    have hi : (codes.map UInt8.toNat).idxOf? code.toNat = codes.idxOf? code := by
      rw [List.idxOf?, List.findIdx?_map, List.idxOf?]
      congr 1
      funext c
      exact Bool.eq_iff_iff.mpr (by simp [UInt8.toNat_inj])
    simp only [glyph?, Run.glyphFrom?_eq, h, hi, Nat.add_comm]

end Cff.Encoding

end PdfGraphics
