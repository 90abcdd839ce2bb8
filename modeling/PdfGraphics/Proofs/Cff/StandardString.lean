import Mathlib.Data.List.Nodup
import PdfGraphics.Bytes.Basic
import PdfGraphics.Cff.StandardString
import PdfGraphics.Text.Utf8
/-!
No standard string is listed twice, so it has one identifier among them.
-/

namespace PdfGraphics.Cff

-- A number for each standard string: what is left of its bytes, as one number, by a modulus for
-- which no two of them come out the same.
def tag (s : String) : Nat :=
  Bytes.value (Text.utf8 s) % 9111

-- Whether each number is new, when those with a bit in `seen` are not.
def areNew (seen : Nat) : List Nat → Bool
  | []        => true
  | n :: rest => !seen.testBit n && areNew (seen ||| 1 <<< n) rest

theorem nodup_of_areNew {seen : Nat} {ns : List Nat} (h : areNew seen ns) :
    ns.Nodup ∧ ∀ n ∈ ns, seen.testBit n = false := by
  induction ns generalizing seen with
  | nil            => exact ⟨.nil, nofun⟩
  | cons n rest ih =>
    simp only [areNew, Bool.and_eq_true, Bool.not_eq_true'] at h
    have ⟨hn, hrest⟩ := h
    have ⟨hnodup, hseen⟩ := ih hrest
    simp only [Nat.testBit_or, Bool.or_eq_false_iff] at hseen
    refine ⟨List.nodup_cons.mpr ⟨fun hm => ?_, hnodup⟩, List.forall_mem_cons.mpr ⟨hn, ?_⟩⟩
    case _ =>
      have hbit := (hseen n hm).right
      simp at hbit
    case _ => exact fun n' hm => (hseen n' hm).left

theorem nodup_standardStrings : standardStrings.toList.Nodup := by
  have h : areNew 0 (standardStrings.toList.map tag) := by
    decide +kernel
  exact .of_map tag (nodup_of_areNew h).left

-- A standard string has one position.
theorem eq_of_standardStrings {i j : Nat} {s : String} (hi : standardStrings[i]? = some s)
    (hj : standardStrings[j]? = some s) : i = j := by
  have ⟨hli, hgi⟩ := Array.getElem?_eq_some_iff.mp hi
  have ⟨hlj, hgj⟩ := Array.getElem?_eq_some_iff.mp hj
  exact nodup_standardStrings.getElem_inj_iff.mp (hgi.trans hgj.symm)

end PdfGraphics.Cff
