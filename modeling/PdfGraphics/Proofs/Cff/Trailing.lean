import Mathlib.Data.Option.Basic
import PdfGraphics.Cff.Encoding
import PdfGraphics.Cff.Index
import PdfGraphics.Proofs.Cff.Front
/-!
Bytes behind what is read.

A reader that does not run out of bytes gives the same answer with more of them, and leaves the
further ones behind. What is found by its offset in a buffer stays where it is when the buffer
grows.
-/

namespace PdfGraphics

variable {bytes rest : List UInt8} {width count n : Nat}

namespace Bytes

theorem take?_append {front : List UInt8} (h : take? n bytes = some (front, rest))
    (after : List UInt8) : take? n (bytes ++ after) = some (front, rest ++ after) := by
  have ⟨hb, hz⟩ := take?_front h
  rw [hb, List.append_assoc]
  exact hz _

theorem number?_append (h : number? width bytes = some (n, rest)) (after : List UInt8) :
    number? width (bytes ++ after) = some (n, rest ++ after) := by
  have ⟨front, hb, hz⟩ := number?_front h
  rw [hb, List.append_assoc]
  exact hz _

theorem numbersAfter_append {read ns : List Nat}
    (h : numbersAfter width read count bytes = some (ns, rest)) (after : List UInt8) :
    numbersAfter width read count (bytes ++ after) = some (ns, rest ++ after) := by
  induction count generalizing read bytes with
  | zero          =>
    cases h
    rfl
  | succ count ih =>
    rw [numbersAfter] at h
    split at h
    case h_1 n bytes' hn =>
      rw [numbersAfter, number?_append hn]
      exact ih h
    case h_2 => cases h

theorem numbers?_append {ns : List Nat} (h : numbers? width count bytes = some (ns, rest))
    (after : List UInt8) : numbers? width count (bytes ++ after) = some (ns, rest ++ after) :=
  numbersAfter_append h after

-- A reader that needs a byte and that more bytes do not disturb finds at an offset what it found
-- there.
theorem read_drop_append {α : Type} (read : List UInt8 → Except DecodeError α) {a : α}
    {offset : Nat} {after : List UInt8} (hn : read [] ≠ .ok a)
    (hr : ∀ {bytes}, read bytes = .ok a → read (bytes ++ after) = .ok a)
    (h : read (bytes.drop offset) = .ok a) : read ((bytes ++ after).drop offset) = .ok a := by
  have ho : offset < bytes.length := by
    refine Nat.lt_of_not_le fun hl => hn ?_
    rwa [List.drop_eq_nil_of_le hl] at h
  rw [List.drop_append_of_le_length (Nat.le_of_lt ho)]
  exact hr h

theorem slice?_append {data : List UInt8} {offset size : Nat}
    (h : slice? bytes offset size = some data) (after : List UInt8) :
    slice? (bytes ++ after) offset size = some data := by
  rw [slice?] at h ⊢
  split at h
  case isFalse => cases h
  case isTrue ho =>
    have ⟨⟨front, rest⟩, ht, hf⟩ := Option.map_eq_some_iff.mp h
    have ho' : offset ≤ (bytes ++ after).length := by
      rw [List.length_append]
      omega
    rw [if_pos ho', List.drop_append_of_le_length ho, take?_append ht]
    exact congrArg some hf

end Bytes

namespace Cff

namespace Index

theorem cutAfter_append {base start : Nat} {cut cut' : Array (Nat × List UInt8)} {stops : List Nat}
    (h : cutAfter base cut start stops bytes = some cut') (after : List UInt8) :
    cutAfter base cut start stops (bytes ++ after) = some cut' := by
  induction stops generalizing cut start bytes with
  | nil                => exact h
  | cons stop stops ih =>
    rw [cutAfter] at h ⊢
    split at h
    case isTrue => cases h
    case isFalse hs =>
      rw [if_neg hs]
      split at h
      case h_1 entry bytes' ht =>
        rw [Bytes.take?_append ht]
        exact ih h
      case h_2 => cases h

theorem parse?_append {position : Nat} {index : Index} (h : parse? position bytes = some index)
    (after : List UInt8) : parse? position (bytes ++ after) = some index := by
  simp only [parse?, Option.bind_eq_bind, Option.bind_eq_some_iff] at h
  have ⟨⟨count, bytes₁⟩, hc, h⟩ := h
  simp only [parse?, Option.bind_eq_bind, Bytes.number?_append hc, Option.bind_some]
  split at h
  case isTrue h₀ =>
    rw [if_pos h₀]
    exact h
  case isFalse h₀ =>
    rw [if_neg h₀]
    simp only [Option.bind_eq_some_iff] at h
    have ⟨⟨width, bytes₂⟩, hw, _, hg, ⟨offsets, bytes₃⟩, ho, h⟩ := h
    simp only [Bytes.number?_append hw, Option.bind_some, hg, Bytes.numbers?_append ho]
    cases offsets with
    | nil              => cases h
    | cons first stops =>
      simp only [Option.bind_eq_some_iff] at h
      have ⟨_, hf, ⟨skipped, data⟩, ht, entries, hcut, he⟩ := h
      simp only [hf, Option.bind_some, Bytes.take?_append ht, cutAfter_append hcut, he]

theorem read_append {buffer : List UInt8} {offset : Nat} {index : Index}
    (h : read buffer offset = .ok index) (after : List UInt8) :
    read (buffer ++ after) offset = .ok index :=
  Bytes.read_drop_append (fun bytes => need (parse? offset bytes) .malformedIndex) nofun
    (fun h => need_eq_ok.mpr (parse?_append (need_eq_ok.mp h) after)) h

end Index

namespace Charset

theorem readRuns_append {format : UInt8} {read runs : List Run} {missing : Nat}
    (h : readRuns format width read missing bytes = .ok runs) (after : List UInt8) :
    readRuns format width read missing (bytes ++ after) = .ok runs := by
  fun_induction readRuns format width read missing bytes with
  | case1 =>
    rw [readRuns, if_pos rfl]
    exact h
  | case4 _ missing bytes hm first bytes₁ hf left bytes₂ hl _ hv _ ih =>
    rw [readRuns, if_neg hm, Bytes.number?_append hf]
    simp only [Bytes.number?_append hl]
    rw [if_pos hv]
    exact ih h
  | case2 | case3 | case5 => cases h

theorem readCustom_append {missing : Nat} {charset : Charset}
    (h : readCustom missing bytes = .ok charset) (after : List UInt8) :
    readCustom missing (bytes ++ after) = .ok charset := by
  cases bytes with
  | nil               => cases h
  | cons format bytes =>
    simp only [readCustom, List.cons_append] at h ⊢
    split at h
    case h_1 =>
      obtain ⟨⟨sids, rest⟩, hs, hc⟩ := map_eq_ok.mp h
      rw [Bytes.numbers?_append (need_eq_ok.mp hs)]
      exact congrArg _ hc
    case h_2 | h_3 =>
      obtain ⟨runs, hr, hc⟩ := map_eq_ok.mp h
      rw [readRuns_append hr]
      exact congrArg _ hc
    case h_4 => cases h

theorem read_append {buffer : List UInt8} {base glyphCount : Nat} {charset : Charset}
    (h : read buffer base glyphCount = .ok charset) (after : List UInt8) :
    read (buffer ++ after) base glyphCount = .ok charset := by
  simp only [read] at h ⊢
  split at h
  case h_4 => exact Bytes.read_drop_append (readCustom _) nofun (readCustom_append · after) h
  all_goals exact h

end Charset

namespace Encoding

theorem readRuns_append {format : UInt8} {runs : List Run}
    (h : readRuns format count bytes = .ok (runs, rest)) (after : List UInt8) :
    readRuns format count (bytes ++ after) = .ok (runs, rest ++ after) := by
  fun_induction readRuns format count bytes generalizing runs with
  | case1 =>
    cases h
    rfl
  | case2 count first left bytes hl ih =>
    have ⟨⟨runs', rest'⟩, hr, he⟩ := map_eq_ok.mp h
    cases he
    rw [List.cons_append, List.cons_append, readRuns, if_pos hl, ih hr]
    rfl
  | case3 | case4 => cases h

theorem readSupplementList_append {ss : List Supplement}
    (h : readSupplementList count bytes = .ok ss) (after : List UInt8) :
    readSupplementList count (bytes ++ after) = .ok ss := by
  fun_induction readSupplementList count bytes generalizing ss with
  | case1                           => exact h
  | case3 _ code bytes sid _ hs ih  =>
    have ⟨ss', hr, he⟩ := map_eq_ok.mp h
    simp only [List.cons_append, readSupplementList, Bytes.number?_append hs, ih hr]
    exact congrArg _ he
  | case2 | case4                   => cases h

theorem readSupplements_append {format : UInt8} {ss : List Supplement}
    (h : readSupplements format bytes = .ok ss) (after : List UInt8) :
    readSupplements format (bytes ++ after) = .ok ss := by
  simp only [readSupplements] at h ⊢
  split at h
  case isTrue hf =>
    rw [if_pos hf]
    exact h
  case isFalse hf =>
    rw [if_neg hf]
    cases bytes with
    | nil              => cases h
    | cons count bytes => exact readSupplementList_append h after

theorem readCodes_append {codes : List UInt8} (h : readCodes bytes = .ok (codes, rest))
    (after : List UInt8) : readCodes (bytes ++ after) = .ok (codes, rest ++ after) := by
  cases bytes with
  | nil              => cases h
  | cons count bytes => exact need_eq_ok.mpr (Bytes.take?_append (need_eq_ok.mp h) after)

theorem readCustom_append {encoding : Encoding} (h : readCustom bytes = .ok encoding)
    (after : List UInt8) : readCustom (bytes ++ after) = .ok encoding := by
  cases bytes with
  | nil               => cases h
  | cons format bytes =>
    simp only [readCustom, List.cons_append] at h ⊢
    split at h
    case h_1 =>
      simp only [bind_eq_ok] at h ⊢
      obtain ⟨⟨codes, rest⟩, hc, ss, hs, he⟩ := h
      exact ⟨_, readCodes_append hc after, ss, readSupplements_append hs after, he⟩
    case h_2 =>
      cases bytes with
      | nil              => cases h
      | cons count bytes =>
        simp only [List.cons_append, bind_eq_ok] at h ⊢
        obtain ⟨⟨codes, rest⟩, hc, ss, hs, he⟩ := h
        exact ⟨_, readRuns_append hc after, ss, readSupplements_append hs after, he⟩
    case h_3 => cases h

theorem read_append {buffer : List UInt8} {base : Nat} {encoding : Encoding}
    (h : read buffer base = .ok encoding) (after : List UInt8) :
    read (buffer ++ after) base = .ok encoding := by
  simp only [read] at h ⊢
  split at h
  case h_3 => exact Bytes.read_drop_append readCustom nofun (readCustom_append · after) h
  all_goals exact h

end Encoding

end Cff

end PdfGraphics
