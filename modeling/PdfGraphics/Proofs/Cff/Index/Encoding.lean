import PdfGraphics.Proofs.Cff.Index.Layout
/-!
INDEXes that are written and read back.

Reading accepts the stored tables that keep to the rules, and no others; and it gives back every
list of byte strings from its encoding, wherever in a buffer the encoding lies.
-/

namespace PdfGraphics.Cff.Index

open Bytes

-- Where each string ends, when the first one starts at `start`.
def ends (start : Nat) : List (List UInt8) → List Nat
  | []           => []
  | s :: strings => (start + s.length) :: ends (start + s.length) strings

-- The table of a list of strings, with offsets of `width` bytes.
def encode (width : Nat) (strings : List (List UInt8)) : List UInt8 :=
  if strings.isEmpty then
    spell 2 0
  else
    spell 2 strings.length ++ spell 1 width ++ (1 :: ends 1 strings).flatMap (spell width) ++
      strings.flatten

-- The strings can be counted in two bytes, and every offset has room in `width` bytes.
structure Fits (width : Nat) (strings : List (List UInt8)) : Prop where
  counted : strings.length ≤ 65535
  legal   : 1 ≤ width ∧ width ≤ 4
  room    : 1 + strings.flatten.length < 256 ^ width

variable {width : Nat} {strings : List (List UInt8)}

theorem length_ends (start : Nat) (strings : List (List UInt8)) :
    (ends start strings).length = strings.length := by
  induction strings generalizing start with
  | nil               => rfl
  | cons s strings ih => simp [ends, ih]

theorem le_of_mem_ends {start n : Nat} (h : n ∈ ends start strings) :
    n ≤ start + strings.flatten.length := by
  induction strings generalizing start with
  | nil               => cases h
  | cons s strings ih =>
    rw [List.flatten_cons, List.length_append]
    cases List.mem_cons.mp h with
    | inl he => omega
    | inr hm =>
      have := ih hm
      omega

theorem getLastD_ends (start : Nat) (strings : List (List UInt8)) :
    (ends start strings).getLastD start = start + strings.flatten.length := by
  induction strings generalizing start with
  | nil               => rfl
  | cons s strings ih =>
    rw [ends, List.getLastD_cons, ih, List.flatten_cons, List.length_append, Nat.add_assoc]

theorem cutAfter_ends (base : Nat) (cut : Array (Nat × List UInt8)) (start : Nat)
    (strings : List (List UInt8)) (rest : List UInt8) :
    ∃ entries,
      cutAfter base cut start (ends start strings) (strings.flatten ++ rest) = some entries ∧
      entries.toList.map (·.2) = cut.toList.map (·.2) ++ strings := by
  induction strings generalizing cut start with
  | nil               => exact ⟨cut, rfl, by simp⟩
  | cons s strings ih =>
    have ht : take? (start + s.length - start) (s ++ (strings.flatten ++ rest)) =
        some (s, strings.flatten ++ rest) :=
      take?_eq_some.mpr ⟨by omega, rfl⟩
    have ⟨entries, hc, he⟩ := ih (cut.push (base + start, s)) (start + s.length)
    refine ⟨entries, ?_, by simpa using he⟩
    rw [ends, cutAfter, if_neg (by omega), List.flatten_cons, List.append_assoc]
    simp only [ht, hc]

theorem length_encode (h : strings ≠ []) :
    (encode width strings).length =
      2 + 1 + width * (strings.length + 1) + strings.flatten.length := by
  have hs (ns : List Nat) : (ns.flatMap (spell width)).length = width * ns.length := by
    simp only [List.length_flatMap, length_spell, List.map_const', List.sum_replicate_nat,
      Nat.mul_comm]
  simp only [encode, List.isEmpty_iff, h, if_false, List.length_append, length_spell, hs,
    List.length_cons, length_ends]

theorem parse?_encode (h : Fits width strings) (position : Nat) (rest : List UInt8) :
    ∃ index, parse? position (encode width strings ++ rest) = some index ∧
      index.toList = strings ∧ index.size = (encode width strings).length := by
  by_cases hs : strings = []
  case pos =>
    subst hs
    have hn := number?_spell (show 0 < 256 ^ 2 by decide) rest
    exact ⟨{}, by simp [parse?, encode, hn], by simp [toList_eq], by simp [encode]⟩
  case neg =>
    have hcount := h.counted
    have hwidth := h.legal
    have hroom := h.room
    have hlength : strings.length ≠ 0 := fun h₀ => hs (List.length_eq_zero_iff.mp h₀)
    have hc := number?_spell (show strings.length < 256 ^ 2 by omega)
      (spell 1 width ++ (1 :: ends 1 strings).flatMap (spell width) ++ strings.flatten ++ rest)
    have hw := number?_spell (show width < 256 ^ 1 by omega)
      ((1 :: ends 1 strings).flatMap (spell width) ++ strings.flatten ++ rest)
    have hbound : ∀ n ∈ 1 :: ends 1 strings, n < 256 ^ width := by
      intro n hn
      cases List.mem_cons.mp hn with
      | inl he => omega
      | inr hm =>
        have := le_of_mem_ends hm
        omega
    have ho := numbers?_spell hbound (strings.flatten ++ rest)
    rw [List.length_cons, length_ends] at ho
    obtain ⟨entries, hcut, he⟩ :=
      cutAfter_ends (position + 2 + width * (strings.length + 1)) #[] 1 strings rest
    have hg := (Option.guard_eq_some' ()).mpr hwidth
    have hg' := (Option.guard_eq_some' ()).mpr (Nat.le_refl 1)
    refine ⟨{ entries, size := 2 + width * (strings.length + 1) + (1 + strings.flatten.length) },
      ?_, ?_, ?_⟩
    case _ =>
      have ht : take? (1 - 1) (strings.flatten ++ rest) = some ([], strings.flatten ++ rest) := rfl
      rw [parse?, encode, List.isEmpty_eq_false_iff.mpr hs]
      simp only [Bool.false_eq_true, if_false, List.append_assoc] at hc hw ho ⊢
      simp only [hc, hlength, hw, hg, ho, hg', ht, hcut, getLastD_ends, if_false,
        Option.bind_eq_bind, Option.bind_some, Option.pure_def]
    case _ => simpa [toList_eq] using he
    case _ =>
      rw [length_encode hs]
      simp only
      omega

theorem read_encode (h : Fits width strings) (before after : List UInt8) :
    ∃ index, read (before ++ encode width strings ++ after) before.length = .ok index ∧
      index.toList = strings ∧ index.size = (encode width strings).length := by
  have ⟨index, hp, hs⟩ := parse?_encode h before.length after
  refine ⟨index, ?_, hs⟩
  rw [read, need_eq_ok, List.append_assoc, List.drop_left, hp]

theorem error_of_read {buffer : List UInt8} {offset : Nat} {e : DecodeError}
    (h : read buffer offset = .error e) : e = .malformedIndex := by
  rw [read] at h
  cases hp : parse? offset (buffer.drop offset) with
  | none       =>
    rw [hp] at h
    cases h
    rfl
  | some index =>
    rw [hp] at h
    cases h

-- Reading succeeds on the tables that keep to the rules, and on no others. The index then has the
-- entries that the table says, one behind the other and all of them inside the buffer. Any strings
-- that fit are read back from their encoding, wherever it lies in a buffer.
theorem read_accepts_tables (buffer : List UInt8) (offset : Nat) :
    ((∃ index, read buffer offset = .ok index) ↔ Legal buffer offset) ∧
    (∀ e, read buffer offset = .error e → e = .malformedIndex) ∧
    (∀ index, read buffer offset = .ok index → Holds buffer offset index) ∧
    ∀ (width : Nat) (strings : List (List UInt8)) (before after : List UInt8), Fits width strings →
      ∃ index, read (before ++ encode width strings ++ after) before.length = .ok index ∧
        index.toList = strings ∧ index.size = (encode width strings).length := by
  refine ⟨⟨fun ⟨_, h⟩ => legal_of_read h, fun h => ⟨_, read_of_legal h⟩⟩, fun _ => error_of_read,
    ?_, fun _ _ before after h => read_encode h before after⟩
  intro index h
  have hl := legal_of_read h
  have he : stored buffer offset = index := Except.ok.inj ((read_of_legal hl).symm.trans h)
  exact he ▸ holds_stored hl

-- Two strings, the second of them empty, behind one byte and before another.
def twoStrings : List UInt8 := [7, 0, 2, 1, 1, 3, 3, 97, 98, 9]

theorem read_accepts_tables_twoStrings :
    Fits 1 [[97, 98], []] ∧ [7] ++ encode 1 [[97, 98], []] ++ [9] = twoStrings ∧
    (∃ index, read ([7] ++ encode 1 [[97, 98], []] ++ [9]) 1 = .ok index ∧
      index.toList = [[97, 98], []] ∧ index.size = 8) ∧
    ∃ index, read twoStrings 1 = .ok index ∧ index.count = 2 ∧
      index.entries[1]? = some (9, []) := by
  have hf : Fits 1 [[97, 98], []] := ⟨by decide, by decide, by decide⟩
  have hl : Legal twoStrings 1 :=
    ⟨by decide, .inr ⟨by decide, by decide, by decide, by decide, by decide⟩⟩
  have ⟨index, hr⟩ := (read_accepts_tables twoStrings 1).left.mpr hl
  have hh := (read_accepts_tables twoStrings 1).right.right.left index hr
  have ⟨bytes, he, _, hs⟩ := hh.entry 1 (by decide)
  have hp : storedBase twoStrings 1 + storedOffset twoStrings 1 1 = 9 := by decide
  have hw : storedOffset twoStrings 1 (1 + 1) - storedOffset twoStrings 1 1 = 0 := by decide
  have hb : slice? twoStrings 9 0 = some [] := by decide
  rw [hp, hw, hb] at hs
  rw [hp, ← Option.some.inj hs] at he
  exact ⟨hf, by decide, (read_accepts_tables [] 0).right.right.right 1 [[97, 98], []] [7] [9] hf,
    index, hr, hh.count, he⟩

end PdfGraphics.Cff.Index
