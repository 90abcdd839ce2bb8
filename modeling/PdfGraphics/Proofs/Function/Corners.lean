import Mathlib.Algebra.BigOperators.Fin
import Mathlib.Algebra.Order.BigOperators.Ring.Finset
import PdfGraphics.Proofs.Function.Grid
import PdfGraphics.Proofs.Scalar.Rational
/-!
The corners of a cell and their weights, in exact numbers.

A corner is a choice of the lower or of the upper position on each axis. Where an axis has nothing
to choose, the upper position would weigh nothing, so that the corners which are left out change
neither a sum over all choices nor the sum of the weights, which is one.
-/

namespace PdfGraphics.Function

namespace GridCell

-- The lower or the upper position.
def position (c : GridCell ℚ) (upper : Bool) : Nat :=
  if upper then c.upper else c.lower

-- The weight of that position.
def share (c : GridCell ℚ) (upper : Bool) : ℚ :=
  if upper then c.t else 1 - c.t

-- The input is between two positions.
def Between (c : GridCell ℚ) : Prop :=
  c.lower ≠ c.upper ∧ 0 < c.t

instance (c : GridCell ℚ) : Decidable c.Between :=
  inferInstanceAs (Decidable (_ ∧ _))

-- The share is one, and it is zero where the input is not between two positions.
structure Fair (c : GridCell ℚ) : Prop where
  nonneg : 0 ≤ c.t
  le_one : c.t ≤ 1
  whole : ¬c.Between → c.t = 0

variable {m : Nat}

-- The product of the shares of the positions that are chosen.
def weight (cells : Fin m → GridCell ℚ) (choice : Fin m → Bool) : ℚ :=
  ∏ i, (cells i).share (choice i)

-- The number in the table, with the first axis varying fastest.
def entry (cells : Fin m → GridCell ℚ) (choice : Fin m → Bool) : Nat :=
  ∑ i, (cells i).position (choice i) * ∏ k : Fin i, (cells (Fin.castLE i.is_lt.le k)).size

def corner (cells : Fin m → GridCell ℚ) (choice : Fin m → Bool) : Corner ℚ :=
  ⟨weight cells choice, entry cells choice⟩

-- The upper position is chosen only where the input is between two positions.
def Visits (cells : Fin m → GridCell ℚ) (choice : Fin m → Bool) : Prop :=
  ∀ i, choice i = true → (cells i).Between

instance (cells : Fin m → GridCell ℚ) : DecidablePred (Visits cells) := fun choice =>
  inferInstanceAs (Decidable (∀ i, choice i = true → (cells i).Between))

theorem share_add_share (c : GridCell ℚ) : c.share true + c.share false = 1 := by
  simp [share]

theorem weight_cons (cells : Fin (m + 1) → GridCell ℚ) (upper : Bool) (choice : Fin m → Bool) :
    weight cells (Fin.cons upper choice) =
      (cells 0).share upper * weight (Fin.tail cells) choice := by
  simp only [weight, Fin.prod_univ_succ, Fin.cons_zero, Fin.cons_succ, Fin.tail]

theorem entry_cons (cells : Fin (m + 1) → GridCell ℚ) (upper : Bool) (choice : Fin m → Bool) :
    entry cells (Fin.cons upper choice) =
      (cells 0).position upper + (cells 0).size * entry (Fin.tail cells) choice := by
  have hstride (i : Fin m) :
      ∏ k : Fin i.succ, (cells (Fin.castLE i.succ.is_lt.le k)).size =
        (cells 0).size * ∏ k : Fin i, (Fin.tail cells (Fin.castLE i.is_lt.le k)).size :=
    Fin.prod_univ_succ _
  simp only [entry, Fin.sum_univ_succ, Fin.cons_zero, Fin.cons_succ, hstride, Finset.mul_sum]
  congr 1
  case _ => exact Nat.mul_one _
  case _ => exact Finset.sum_congr rfl fun i _ => Nat.mul_left_comm ..

-- The corner that an earlier one becomes by a position on a further axis.
def extend (c : GridCell ℚ) (stride : Nat) (upper : Bool) (k : Corner ℚ) : Corner ℚ :=
  ⟨k.weight * c.share upper, k.entry + c.position upper * stride⟩

theorem Fair.split_eq {c : GridCell ℚ} (h : c.Fair) (stride : Nat) (corners : List (Corner ℚ)) :
    c.split stride corners = corners.map (c.extend stride false) ++
      if c.Between then corners.map (c.extend stride true) else [] := by
  have hi : c.isInterpolated = true ↔ c.Between := by simp [isInterpolated, Between]
  simp only [split, hi]
  split
  case isTrue     => rfl
  case isFalse hb => simp [extend, share, position, h.whole hb]

section Sums

variable {M : Type} [AddCommMonoid M]

theorem sum_cons (f : (Fin (m + 1) → Bool) → M) :
    ∑ choice, f choice =
      (∑ choice, f (Fin.cons false choice)) + ∑ choice, f (Fin.cons true choice) := by
  rw [← (Fin.consEquiv fun _ => Bool).sum_comp, Fintype.sum_prod_type, Fintype.sum_bool, add_comm]
  rfl

theorem visits_cons {cells : Fin (m + 1) → GridCell ℚ} {upper : Bool} {choice : Fin m → Bool} :
    Visits cells (Fin.cons upper choice) ↔
      (upper = true → (cells 0).Between) ∧ Visits (Fin.tail cells) choice := by
  simp only [Visits, Fin.forall_fin_succ, Fin.cons_zero, Fin.cons_succ, Fin.tail]

theorem sum_visits_cons (cells : Fin (m + 1) → GridCell ℚ) (f : (Fin (m + 1) → Bool) → M) :
    ∑ choice with Visits cells choice, f choice =
      (∑ choice with Visits (Fin.tail cells) choice, f (Fin.cons false choice)) +
        if (cells 0).Between then
          ∑ choice with Visits (Fin.tail cells) choice, f (Fin.cons true choice)
        else
          0 := by
  simp only [Finset.sum_filter, sum_cons, visits_cons]
  split
  case isTrue h  => simp [h]
  case isFalse h => simp [h]

-- Summing over the corners that are visited comes to summing over their choices.
theorem sum_cornersFrom (f : Corner ℚ → M) {cells : Fin m → GridCell ℚ} (h : ∀ i, (cells i).Fair)
    (stride : Nat) (corners : List (Corner ℚ)) :
    ((cornersFrom stride corners (List.ofFn cells)).map f).sum =
      (corners.map fun k => ∑ choice with Visits cells choice,
        f ⟨k.weight * weight cells choice, k.entry + stride * entry cells choice⟩).sum := by
  induction m generalizing stride corners with
  | zero       =>
    have hv (choice : Fin 0 → Bool) : Visits cells choice := fun i => i.elim0
    simp only [List.ofFn_zero, cornersFrom, hv, Finset.filter_true, Finset.univ_unique,
      Finset.sum_singleton, weight, entry, Finset.univ_eq_empty, Finset.prod_empty,
      Finset.sum_empty, mul_one, mul_zero, add_zero]
  | succ m ih =>
    have hcells : List.ofFn cells = cells 0 :: List.ofFn (Fin.tail cells) := List.ofFn_succ
    have hrest (i : Fin m) : (Fin.tail cells i).Fair := h i.succ
    have hextend (upper : Bool) (k : Corner ℚ) (w : ℚ) (e : Nat) :
        (⟨k.weight * ((cells 0).share upper * w),
          k.entry + stride * ((cells 0).position upper + (cells 0).size * e)⟩ : Corner ℚ) =
        ⟨((cells 0).extend stride upper k).weight * w,
          ((cells 0).extend stride upper k).entry + stride * (cells 0).size * e⟩ := by
      simp only [extend, Corner.mk.injEq]
      constructor <;> ring
    rw [hcells, cornersFrom, ih hrest, (h 0).split_eq]
    simp only [sum_visits_cons, weight_cons, entry_cons, hextend, List.map_append, List.sum_append,
      List.sum_map_add, List.map_map, Function.comp_def]
    split
    case isTrue  => rw [List.map_map]; rfl
    case isFalse => simp

theorem sum_corners (f : Corner ℚ → M) {cells : Fin m → GridCell ℚ} (h : ∀ i, (cells i).Fair) :
    ((corners (List.ofFn cells)).map f).sum =
      ∑ choice with Visits cells choice, f (corner cells choice) := by
  simp [corners, sum_cornersFrom f h, corner]

end Sums

variable {cells : Fin m → GridCell ℚ} {choice : Fin m → Bool}

-- The corners that are visited, each as often as there are choices for it.
theorem coe_corners (h : ∀ i, (cells i).Fair) :
    (corners (List.ofFn cells) : Multiset (Corner ℚ)) =
      (Finset.univ.filter (Visits cells)).val.map (corner cells) := by
  have hs := sum_corners (fun k => ({k} : Multiset (Corner ℚ))) h
  rw [← Multiset.sum_coe, ← Multiset.map_coe, Multiset.sum_map_singleton] at hs
  rw [hs, ← Multiset.sum_map_singleton (Multiset.map ..), Multiset.map_map]
  rfl

theorem mem_corners (h : ∀ i, (cells i).Fair) {k : Corner ℚ} :
    k ∈ corners (List.ofFn cells) ↔ ∃ choice, Visits cells choice ∧ corner cells choice = k := by
  rw [← Multiset.mem_coe, coe_corners h]
  simp

theorem share_nonneg {c : GridCell ℚ} (h : c.Fair) (upper : Bool) : 0 ≤ c.share upper := by
  cases upper with
  | false => exact sub_nonneg.mpr h.le_one
  | true  => exact h.nonneg

theorem weight_nonneg (h : ∀ i, (cells i).Fair) (choice : Fin m → Bool) : 0 ≤ weight cells choice :=
  Finset.prod_nonneg fun i _ => share_nonneg (h i) (choice i)

-- A corner that is left out weighs nothing.
theorem weight_eq_zero (h : ∀ i, (cells i).Fair) (hv : ¬Visits cells choice) :
    weight cells choice = 0 := by
  simp only [Visits, not_forall] at hv
  obtain ⟨i, hc, hi⟩ := hv
  refine Finset.prod_eq_zero (Finset.mem_univ i) ?_
  rw [hc]
  exact (h i).whole hi

theorem sum_weight (cells : Fin m → GridCell ℚ) : ∑ choice, weight cells choice = 1 := by
  induction m with
  | zero       => simp [weight]
  | succ m ih =>
    simp only [sum_cons, weight_cons, ← Finset.mul_sum, ih, mul_one]
    rw [add_comm, share_add_share]

theorem sum_visits (h : ∀ i, (cells i).Fair) (v : (Fin m → Bool) → ℚ) :
    ∑ choice with Visits cells choice, weight cells choice * v choice =
      ∑ choice, weight cells choice * v choice := by
  refine Finset.sum_filter_of_ne fun choice _ hne => ?_
  by_contra hv
  exact hne (by rw [weight_eq_zero h hv, zero_mul])

theorem entry_lt (h : ∀ i, (cells i).OnGrid) (choice : Fin m → Bool) :
    entry cells choice < ∏ i, (cells i).size := by
  have hp (i : Fin m) : (cells i).position (choice i) < (cells i).size := by
    cases choice i with
    | false => exact (h i).lower
    | true  => exact (h i).upper
  exact (finPiFinEquiv fun i => ⟨(cells i).position (choice i), hp i⟩).isLt

theorem visits_false (cells : Fin m → GridCell ℚ) : Visits cells fun _ => false := nofun

-- Between no positions, all the weight is on one corner.
theorem sum_of_whole (h : ∀ i, (cells i).Fair) (ht : ∀ i, (cells i).t = 0)
    (v : (Fin m → Bool) → ℚ) : ∑ choice, weight cells choice * v choice = v fun _ => false := by
  have hb (i : Fin m) : ¬(cells i).Between := fun hb => hb.right.ne' (ht i)
  have hv : Finset.univ.filter (Visits cells) = {fun _ => false} := by
    ext choice
    simp [Visits, hb, funext_iff]
  have hw : weight cells (fun _ => false) = 1 :=
    Finset.prod_eq_one fun i _ => by simp [share, ht i]
  rw [← sum_visits h, hv, Finset.sum_singleton, hw, one_mul]

-- A mean lies between the least and the greatest of the values at the corners that are visited.
theorem exists_bounds (h : ∀ i, (cells i).Fair) (v : (Fin m → Bool) → ℚ) :
    ∃ least greatest, Visits cells least ∧ Visits cells greatest ∧
      (∀ choice, Visits cells choice → v least ≤ v choice ∧ v choice ≤ v greatest) ∧
      v least ≤ ∑ choice, weight cells choice * v choice ∧
      ∑ choice, weight cells choice * v choice ≤ v greatest := by
  have hne : (Finset.univ.filter (Visits cells)).Nonempty :=
    ⟨_, Finset.mem_filter_univ _ |>.mpr (visits_false cells)⟩
  have ⟨least, hl, hle⟩ := Finset.exists_min_image _ v hne
  have ⟨greatest, hg, hge⟩ := Finset.exists_max_image _ v hne
  have hconst (y : ℚ) : ∑ choice with Visits cells choice, weight cells choice * y = y := by
    rw [sum_visits h fun _ => y, ← Finset.sum_mul, sum_weight, one_mul]
  have hw := weight_nonneg h
  rw [← sum_visits h]
  refine ⟨least, greatest, (Finset.mem_filter.mp hl).right, (Finset.mem_filter.mp hg).right,
    fun choice hc => ?_, ?_, ?_⟩
  case _ =>
    have hc := (Finset.mem_filter_univ choice).mpr hc
    exact ⟨hle choice hc, hge choice hc⟩
  case _ =>
    calc
      v least = ∑ choice with Visits cells choice, weight cells choice * v least := (hconst _).symm
      _ ≤ _ := Finset.sum_le_sum fun choice hc => mul_le_mul_of_nonneg_left (hle choice hc) (hw _)
  case _ =>
    calc
      _ ≤ ∑ choice with Visits cells choice, weight cells choice * v greatest :=
        Finset.sum_le_sum fun choice hc => mul_le_mul_of_nonneg_left (hge choice hc) (hw _)
      _ = v greatest := hconst _

-- Corners that are visited once for each choice between two positions, with weights that make a
-- mean.
structure Visited (corners : List (Corner ℚ)) (cells : Fin m → GridCell ℚ) : Prop where
  choices : (corners : Multiset (Corner ℚ)) =
    (Finset.univ.filter (Visits cells)).val.map (corner cells)
  nonneg : ∀ k ∈ corners, 0 ≤ k.weight
  total : (corners.map (·.weight)).sum = 1

theorem visited_corners (h : ∀ i, (cells i).Fair) :
    Visited (corners (List.ofFn cells)) cells where
  choices := coe_corners h
  nonneg k hk := by
    have ⟨choice, _, hk⟩ := (mem_corners h).mp hk
    exact hk ▸ weight_nonneg h choice
  total := by
    calc
      _ = ∑ choice with Visits cells choice, weight cells choice := sum_corners _ h
      _ = ∑ choice, weight cells choice := by simpa using sum_visits h fun _ => 1
      _ = 1 := sum_weight cells

end GridCell

end PdfGraphics.Function
