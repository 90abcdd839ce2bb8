import Mathlib.Order.Bounds.Defs
import PdfGraphics.Cff.Charset
/-!
Looking up the glyph of an identifier.

It undoes looking up the identifier of a glyph, as far as that can be undone: of several glyphs with
one identifier it finds the first.
-/

namespace PdfGraphics

variable {α : Type} {xs : Array α} {a : α} {i : Nat}

-- The first position with a property is found, and it is not behind any other.
theorem exists_findIdx?_le {p : α → Bool} (h : xs[i]? = some a) (hp : p a = true) :
    ∃ j, xs.findIdx? p = some j ∧ j ≤ i := by
  have ⟨hl, hg⟩ := Array.getElem?_eq_some_iff.mp h
  rw [← hg] at hp
  cases hj : xs.findIdx? p with
  | none =>
    have hn := Array.findIdx?_eq_none_iff.mp hj _ (Array.getElem_mem hl)
    exact nomatch hn.symm.trans hp
  | some j =>
    have ⟨_, _, first⟩ := Array.findIdx?_eq_some_iff_getElem.mp hj
    exact ⟨j, rfl, Nat.le_of_not_lt fun hij => first i hij hp⟩

theorem idxOf?_eq_findIdx? [BEq α] (xs : Array α) (a : α) :
    xs.idxOf? a = xs.findIdx? (· == a) := by
  obtain ⟨xs⟩ := xs
  rw [List.idxOf?_toArray, List.findIdx?_toArray]
  rfl

theorem getElem?_of_idxOf? [BEq α] [LawfulBEq α] (h : xs.idxOf? a = some i) : xs[i]? = some a := by
  have ⟨hi, he, _⟩ := Array.findIdx?_eq_some_iff_getElem.mp (idxOf?_eq_findIdx? xs a ▸ h)
  rw [Array.getElem?_eq_getElem hi, eq_of_beq he]

theorem exists_idxOf?_le [BEq α] [LawfulBEq α] (h : xs[i]? = some a) :
    ∃ j, xs.idxOf? a = some j ∧ j ≤ i :=
  idxOf?_eq_findIdx? xs a ▸ exists_findIdx?_le h (beq_self_eq_true a)

theorem word16?_eq_some {n : Nat} {w : UInt16} : word16? n = some w ↔ n = w.toNat := by
  unfold word16?
  constructor
  · intro h
    split at h
    case isTrue hn =>
      obtain rfl := Option.some.inj h
      exact (UInt16.toNat_ofNat_of_lt' hn).symm
    case isFalse => cases h
  · rintro rfl
    rw [if_pos w.toNat_lt, UInt16.ofNat_toNat]

theorem exists_word16? {n : Nat} (h : n < 65536) : ∃ w : UInt16, word16? n = some w ∧ w.toNat = n :=
  ⟨.ofNat n, if_pos h, UInt16.toNat_ofNat_of_lt' h⟩

-- A search that finds only what has a property, and nothing behind any other that has it, finds the
-- first that has it.
theorem finds_first {p : UInt16 → Prop} {found : Option UInt16}
    (sound : ∀ w, found = some w → p w)
    (complete : ∀ w, p w → ∃ first, found = some first ∧ first ≤ w) :
    (∀ w, found = some w ↔ p w ∧ ∀ w' < w, ¬p w') ∧ (found = none ↔ ∀ w, ¬p w) := by
  refine ⟨fun w => ⟨fun h => ⟨sound w h, fun w' hlt hp => ?_⟩, ?_⟩, fun h w hp => ?_, fun h => ?_⟩
  case _ =>
    have ⟨first, hf, hle⟩ := complete w' hp
    obtain rfl := Option.some.inj (hf.symm.trans h)
    exact absurd hlt (UInt16.not_lt.mpr hle)
  case _ =>
    rintro ⟨hp, hfirst⟩
    have ⟨first, hf, hle⟩ := complete w hp
    have hge : ¬first < w := fun hlt => hfirst first hlt (sound first hf)
    exact UInt16.le_antisymm hle (UInt16.not_lt.mp hge) ▸ hf
  case _ =>
    have ⟨_, hf, _⟩ := complete w hp
    exact nomatch h.symm.trans hf
  case _ =>
    cases hf : found with
    | none   => rfl
    | some w => exact absurd (sound w hf) (h w)

theorem isLeast_iff {p : UInt16 → Prop} {w : UInt16} :
    IsLeast {w | p w} w ↔ p w ∧ ∀ w' < w, ¬p w' :=
  and_congr_right fun _ =>
    ⟨fun h _ hlt hp => absurd hlt (UInt16.not_lt.mpr (h hp)),
      fun h w' hp => UInt16.not_lt.mp fun hlt => h w' hlt hp⟩

namespace Cff.Charset

variable {charset : Charset} {sid glyph : UInt16}

namespace Run

variable {run : Run} {runs : List Run} {n k : Nat}

theorem contains_iff :
    run.contains sid ↔
      run.first.toNat ≤ sid.toNat ∧ sid.toNat ≤ run.first.toNat + run.left.toNat := by
  simp [contains, UInt16.le_iff_toNat_le]

theorem sidAt?_of_glyphFrom? (h : glyphFrom? sid n runs = some glyph) :
    n ≤ glyph.toNat ∧ sidAt? (glyph.toNat - n) runs = some sid := by
  induction runs generalizing n with
  | nil => cases h
  | cons run runs ih =>
    simp only [glyphFrom?] at h
    split at h
    case isTrue hc =>
      have ⟨_, _⟩ := contains_iff.mp hc
      have := word16?_eq_some.mp h
      rw [sidAt?, if_pos (by omega)]
      exact ⟨by omega, word16?_eq_some.mpr (by omega)⟩
    case isFalse hc =>
      have ⟨hn, hs⟩ := ih h
      rw [sidAt?, if_neg (by omega)]
      exact ⟨by omega, by rwa [show glyph.toNat - n - (run.left.toNat + 1) =
        glyph.toNat - (n + run.left.toNat + 1) by omega]⟩

theorem exists_glyphFrom?_le (h : sidAt? k runs = some sid) (hb : n + k < 65536) :
    ∃ first, glyphFrom? sid n runs = some first ∧ first.toNat ≤ n + k := by
  induction runs generalizing n k with
  | nil => cases h
  | cons run runs ih =>
    rw [sidAt?] at h
    rw [glyphFrom?]
    by_cases hc : run.contains sid
    case pos =>
      have ⟨_, _⟩ := contains_iff.mp hc
      have hk : sid.toNat - run.first.toNat ≤ k := by
        split at h
        case isTrue =>
          have := word16?_eq_some.mp h
          omega
        case isFalse => omega
      have ⟨first, hw, hf⟩ :=
        exists_word16? (show n + (sid.toNat - run.first.toNat) < 65536 by omega)
      rw [if_pos hc]
      exact ⟨first, hw, by omega⟩
    case neg =>
      rw [if_neg hc]
      split at h
      case isTrue =>
        have := word16?_eq_some.mp h
        exact absurd (contains_iff.mpr (by omega)) hc
      case isFalse =>
        have ⟨first, hg, hf⟩ := ih (n := n + run.left.toNat + 1) h (by omega)
        exact ⟨first, hg, by omega⟩

end Run

/-! The predefined tables list the identifiers from glyph 0 on, and glyph 0 has identifier 0. -/

theorem getElem?_of_bind_idxOf? {table : Array UInt16}
    (h : table.idxOf? sid >>= word16? = some glyph) : table[glyph.toNat]? = some sid := by
  have ⟨i, hi, hw⟩ := Option.bind_eq_some_iff.mp h
  exact word16?_eq_some.mp hw ▸ getElem?_of_idxOf? hi

theorem exists_bind_idxOf?_le {table : Array UInt16} (h : table[glyph.toNat]? = some sid) :
    ∃ first, table.idxOf? sid >>= word16? = some first ∧ first.toNat ≤ glyph.toNat := by
  have ⟨i, hi, hl⟩ := exists_idxOf?_le h
  have ⟨first, hw, hf⟩ := exists_word16? (Nat.lt_of_le_of_lt hl glyph.toNat_lt)
  exact ⟨first, by rw [hi]; exact hw, by omega⟩

theorem expertTable_zero : expertTable[0]? = some 0 := by
  decide +kernel

theorem expertSubsetTable_zero : expertSubsetTable[0]? = some 0 := by
  decide +kernel

theorem ne_zero_of_getElem? {table : Array UInt16} (h₀ : table[0]? = some 0) (hs : sid ≠ 0)
    (h : table[glyph.toNat]? = some sid) : glyph ≠ 0 := by
  rintro rfl
  exact hs (Option.some.inj (h.symm.trans h₀))

theorem ne_zero_of_toNat_pos (h : 1 ≤ glyph.toNat) : glyph ≠ 0 := by
  rintro rfl
  exact absurd h (by decide)

theorem sidOfGlyph?_of_glyphOfSid? (h : charset.glyphOfSid? sid = some glyph) :
    charset.sidOfGlyph? glyph = some sid := by
  unfold glyphOfSid? at h
  split at h
  case isTrue hs =>
    cases h
    rw [hs]
    rfl
  case isFalse hs =>
    cases charset with
    | isoAdobe =>
      cases h
      exact if_neg hs
    | expert =>
      have ht := getElem?_of_bind_idxOf? h
      exact (if_neg (ne_zero_of_getElem? expertTable_zero hs ht)).trans ht
    | expertSubset =>
      have ht := getElem?_of_bind_idxOf? h
      exact (if_neg (ne_zero_of_getElem? expertSubsetTable_zero hs ht)).trans ht
    | listed sids =>
      have ⟨i, hi, hw⟩ := Option.bind_eq_some_iff.mp h
      have hw : i + 1 = glyph.toNat := word16?_eq_some.mp hw
      refine (if_neg (ne_zero_of_toNat_pos (by omega))).trans ?_
      simpa [← hw] using getElem?_of_idxOf? hi
    | shortRuns runs | longRuns runs =>
      have ⟨hg, hr⟩ := Run.sidAt?_of_glyphFrom? h
      exact (if_neg (ne_zero_of_toNat_pos hg)).trans hr

-- The glyph that is found is the first with its identifier.
theorem exists_glyphOfSid?_le (h : charset.sidOfGlyph? glyph = some sid) :
    ∃ first, charset.glyphOfSid? sid = some first ∧ first ≤ glyph := by
  simp only [UInt16.le_iff_toNat_le]
  unfold glyphOfSid?
  split
  case isTrue => exact ⟨0, rfl, Nat.zero_le _⟩
  case isFalse hs =>
    unfold sidOfGlyph? at h
    split at h
    case isTrue => exact absurd (Option.some.inj h).symm hs
    case isFalse hg =>
      have hlt := glyph.toNat_lt
      have hpos : 0 < glyph.toNat := Nat.pos_of_ne_zero fun h₀ => hg (UInt16.toNat_inj.mp h₀)
      cases charset with
      | isoAdobe => exact ⟨sid, rfl, by cases h; exact Nat.le_refl _⟩
      | expert => exact exists_bind_idxOf?_le h
      | expertSubset => exact exists_bind_idxOf?_le h
      | listed sids =>
        have ⟨i, hi, hl⟩ := exists_idxOf?_le h
        have ⟨first, hw, hf⟩ := exists_word16? (show i + 1 < 65536 by omega)
        exact ⟨first, by simp [hi, hw], by omega⟩
      | shortRuns runs | longRuns runs =>
        have ⟨first, hf, hl⟩ := Run.exists_glyphFrom?_le (n := 1) h (by omega)
        exact ⟨first, hf, by omega⟩

theorem glyphOfSid?_eq_some :
    charset.glyphOfSid? sid = some glyph ↔
      IsLeast {g | charset.sidOfGlyph? g = some sid} glyph := by
  have ⟨found, _⟩ := finds_first (p := fun g => charset.sidOfGlyph? g = some sid)
    (fun _ => sidOfGlyph?_of_glyphOfSid?) fun _ => exists_glyphOfSid?_le
  rw [isLeast_iff, found]

-- The glyph of an identifier is the first that has it, whatever the runs of the charset: they may
-- repeat identifiers, leave the identifiers that there are or go on behind the last glyph that can
-- be numbered. There is none just where no glyph has the identifier.
theorem glyphOfSid?_inverts (charset : Charset) (sid : UInt16) :
    (∀ glyph, charset.glyphOfSid? sid = some glyph ↔
      charset.sidOfGlyph? glyph = some sid ∧ ∀ g < glyph, charset.sidOfGlyph? g ≠ some sid) ∧
    (charset.glyphOfSid? sid = none ↔ ∀ glyph, charset.sidOfGlyph? glyph ≠ some sid) :=
  finds_first (fun _ => sidOfGlyph?_of_glyphOfSid?) fun _ => exists_glyphOfSid?_le

-- Two runs that overlap, of which the first leaves the identifiers.
example : (longRuns [⟨65534, 3⟩, ⟨65530, 9⟩]).glyphOfSid? 65535 = some 2 ∧
    (longRuns [⟨65534, 3⟩, ⟨65530, 9⟩]).glyphOfSid? 65531 = some 6 ∧
    (longRuns [⟨65534, 3⟩, ⟨65530, 9⟩]).sidOfGlyph? 3 = none := by
  decide

end Cff.Charset

end PdfGraphics
