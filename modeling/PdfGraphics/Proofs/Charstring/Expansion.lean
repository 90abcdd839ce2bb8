import PdfGraphics.Charstring.Machine
/-!
The grammar of the path operators.

From the bottom of the stack, the operands of a path operator are groups, one for each line or
curve. Every operator reads its operands as the grammar says, whatever their number is: there is
just one reading of them, and the lines and curves that it gives are drawn one after the other.
-/

namespace PdfGraphics.Charstring

variable {α : Type}

section Groups

variable {n : Nat}

-- Groups of operands, one behind the other.
def flat (groups : List (Vector α n)) : List α :=
  groups.flatMap Vector.toList

@[simp] theorem flat_nil : flat ([] : List (Vector α n)) = [] := rfl

@[simp] theorem flat_cons (g : Vector α n) (groups : List (Vector α n)) :
    flat (g :: groups) = g.toList ++ flat groups := rfl

@[simp] theorem length_flat (groups : List (Vector α n)) :
    (flat groups).length = n * groups.length := by
  induction groups with
  | nil => rfl
  | cons g groups ih =>
    rw [flat_cons, List.length_append, ih, Vector.length_toList, List.length_cons, Nat.mul_succ,
      Nat.add_comm]

theorem length_flat_append (groups : List (Vector α n)) (rest : List α) :
    (flat groups ++ rest).length = n * groups.length + rest.length := by
  rw [List.length_append, length_flat]

theorem exists_front (operands : List α) (h : n ≤ operands.length) :
    ∃ (front : Vector α n) (rest : List α), operands = front.toList ++ rest :=
  ⟨⟨(operands.take n).toArray, by simp [Nat.min_eq_left h]⟩, operands.drop n,
    (List.take_append_drop n operands).symm⟩

-- As many groups as leave `m` operands, those operands, and fewer than `n` behind them.
theorem exists_groups_before {m : Nat} (hn : 0 < n) (operands : List α) (h : m ≤ operands.length) :
    ∃ (groups : List (Vector α n)) (middle : Vector α m) (rest : List α),
      rest.length < n ∧ operands = flat groups ++ (middle.toList ++ rest) := by
  by_cases hl : operands.length < n + m
  case pos =>
    obtain ⟨middle, rest, rfl⟩ := exists_front operands h
    have : rest.length < n := by
      rw [List.length_append, Vector.length_toList] at hl
      omega
    exact ⟨[], middle, rest, this, rfl⟩
  case neg =>
    have ⟨g, tail, he⟩ := exists_front (n := n) operands (by omega)
    have hlen : operands.length = n + tail.length := by
      rw [he, List.length_append, Vector.length_toList]
    have ⟨groups, middle, rest, hr, ht⟩ := exists_groups_before (m := m) hn tail (by omega)
    exact ⟨g :: groups, middle, rest, hr, by rw [flat_cons, List.append_assoc, ← ht, he]⟩
termination_by operands.length
decreasing_by omega

theorem exists_groups (hn : 0 < n) (operands : List α) :
    ∃ (groups : List (Vector α n)) (rest : List α),
      rest.length < n ∧ operands = flat groups ++ rest := by
  obtain ⟨groups, middle, rest, hr, rfl⟩ := exists_groups_before (m := 0) hn operands (Nat.zero_le _)
  exact ⟨groups, rest, hr, by rw [List.eq_nil_of_length_eq_zero middle.length_toList, List.nil_append]⟩

theorem ne_nil_of_le_length {groups : List (Vector α n)} {rest : List α} (hr : rest.length < n)
    (h : n ≤ (flat groups ++ rest).length) : groups ≠ [] := by
  rintro rfl
  exact Nat.not_le_of_lt hr h

theorem le_length_flat_append {groups : List (Vector α n)} (rest : List α) (h : groups ≠ []) :
    n ≤ (flat groups ++ rest).length := by
  obtain ⟨g, groups, rfl⟩ := List.exists_cons_of_ne_nil h
  rw [length_flat_append, List.length_cons, Nat.mul_succ]
  omega

theorem exists_lead (operands : List α) :
    ∃ (lead : Option α) (tail : List α), tail.length % 2 = 0 ∧ operands = lead.toList ++ tail := by
  by_cases hodd : operands.length % 2 = 1
  case pos =>
    obtain ⟨d, tail, rfl⟩ := List.exists_cons_of_length_pos (l := operands) (by omega)
    rw [List.length_cons] at hodd
    exact ⟨some d, tail, by omega, rfl⟩
  case neg => exact ⟨none, operands, by omega, rfl⟩

theorem odd_length_lead {lead : Option α} {tail : List α} (h : tail.length % 2 = 0) :
    decide ((lead.toList ++ tail).length % 2 = 1) = lead.isSome := by
  cases lead with
  | some d =>
    rw [Option.toList_some, List.singleton_append, List.length_cons]
    exact decide_eq_true (by omega)
  | none => exact decide_eq_false (by rw [Option.toList_none, List.nil_append]; omega)

theorem even_length_fours (fours : List (Vector α 4)) {rest : List α}
    (h : rest.length = 0 ∨ rest.length = 2) : (flat fours ++ rest).length % 2 = 0 := by
  rw [length_flat_append]
  omega

-- A leading operand if their number is odd, and then groups of four.
theorem exists_lead_fours (operands : List α) (h : 4 ≤ operands.length) :
    ∃ (lead : Option α) (fours : List (Vector α 4)) (rest : List α),
      fours ≠ [] ∧ (rest.length = 0 ∨ rest.length = 2) ∧
      operands = lead.toList ++ (flat fours ++ rest) := by
  obtain ⟨lead, tail, he, rfl⟩ := exists_lead operands
  obtain ⟨fours, rest, hr, rfl⟩ := exists_groups (n := 4) (by decide) tail
  have hl : 4 ≤ (flat fours ++ rest).length := by
    cases lead with
    | some d =>
      rw [Option.toList_some, List.singleton_append, List.length_cons] at h
      omega
    | none => exact h
  rw [length_flat_append] at he
  exact ⟨lead, fours, rest, ne_nil_of_le_length hr hl, by omega, rfl⟩

theorem toList_two (g : Vector α 2) : g.toList = [g[0], g[1]] :=
  match g with
  | ⟨⟨[_, _]⟩, _⟩ => rfl

theorem toList_four (g : Vector α 4) : g.toList = [g[0], g[1], g[2], g[3]] :=
  match g with
  | ⟨⟨[_, _, _, _]⟩, _⟩ => rfl

theorem toList_six (g : Vector α 6) : g.toList = [g[0], g[1], g[2], g[3], g[4], g[5]] :=
  match g with
  | ⟨⟨[_, _, _, _, _, _]⟩, _⟩ => rfl

-- The first of two in the places 0, 2, 4, … and the second of them in those between.
def alternate {β : Type} (k : Nat) (a b : β) : β :=
  if k % 2 = 0 then a else b

theorem alternate_succ {β : Type} (k : Nat) (a b : β) : alternate (k + 1) a b = alternate k b a := by
  by_cases hk : k % 2 = 0
  case pos => rw [alternate, if_neg (by omega), alternate, if_pos hk]
  case neg => rw [alternate, if_pos (by omega), alternate, if_neg hk]

end Groups

variable {operands rest : List α} {segments : List (Segment α)}

namespace Segment

def ofPair (g : Vector α 2) : Segment α :=
  line g[0] g[1]

def ofSix (g : Vector α 6) : Segment α :=
  curve g[0] g[1] g[2] g[3] g[4] g[5]

theorem lines_short (h : rest.length < 2) : lines rest = [] :=
  match rest with
  | [] | [_] => rfl

theorem curves_short (h : rest.length < 6) : curves rest = [] :=
  match rest with
  | [] | [_] | [_, _] | [_, _, _] | [_, _, _, _] | [_, _, _, _, _] => rfl

theorem lines_flat (pairs : List (Vector α 2)) (h : rest.length < 2) :
    lines (flat pairs ++ rest) = pairs.map ofPair := by
  induction pairs with
  | nil => exact lines_short h
  | cons g pairs ih =>
    rw [flat_cons, toList_two, List.map_cons, ← ih]
    rfl

theorem curves_flat (sixes : List (Vector α 6)) (h : rest.length < 6) :
    curves (flat sixes ++ rest) = sixes.map ofSix := by
  induction sixes with
  | nil => exact curves_short h
  | cons g sixes ih =>
    rw [flat_cons, toList_six, List.map_cons, ← ih]
    rfl

theorem curvesThenLine_flat (sixes : List (Vector α 6)) (pair : Vector α 2)
    (h : rest.length < 6) :
    curvesThenLine (flat sixes ++ (pair.toList ++ rest)) = sixes.map ofSix ++ [ofPair pair] := by
  have hn : 6 * (((flat sixes ++ (pair.toList ++ rest)).length - 2) / 6) = (flat sixes).length := by
    rw [length_flat_append, List.length_append, Vector.length_toList, length_flat]
    omega
  have hc : curves (flat sixes ++ []) = sixes.map ofSix := curves_flat sixes (by simp)
  simp only [curvesThenLine]
  rw [hn, List.take_left, List.drop_left, toList_two, ← hc, List.append_nil]
  rfl

theorem linesThenCurve_flat (pairs : List (Vector α 2)) (six : Vector α 6)
    (h : rest.length < 2) :
    linesThenCurve (flat pairs ++ (six.toList ++ rest)) = pairs.map ofPair ++ [ofSix six] := by
  have hn : 2 * (((flat pairs ++ (six.toList ++ rest)).length - 6) / 2) = (flat pairs).length := by
    rw [length_flat_append, List.length_append, Vector.length_toList, length_flat]
    omega
  have hl : lines (flat pairs ++ []) = pairs.map ofPair := lines_flat pairs (by simp)
  simp only [linesThenCurve]
  rw [hn, List.take_left, List.drop_left, toList_six, ← hl, List.append_nil]
  rfl

end Segment

variable [Scalar α]

-- The operand that the groups leave over, if there is just one.
def leftOver : List α → α
  | [v] => v
  | _ => Scalar.zero

namespace Segment

-- The leading operand is for the first curve only.
theorem horizontalCurves_flat (dy : α) (fours : List (Vector α 4)) (h : rest.length < 4) :
    horizontalCurves dy (flat fours ++ rest) =
      fours.mapIdx fun k g =>
        curve g[0] (if k = 0 then dy else Scalar.zero) g[1] g[2] g[3] Scalar.zero := by
  induction fours generalizing dy with
  | nil =>
    match rest with
    | [] | [_] | [_, _] | [_, _, _] => rfl
  | cons g fours ih =>
    rw [flat_cons, toList_four, List.mapIdx_cons]
    simp only [List.cons_append, List.nil_append, horizontalCurves, ih, ite_self, if_pos,
      Nat.succ_ne_zero, if_false]

theorem verticalCurves_flat (dx : α) (fours : List (Vector α 4)) (h : rest.length < 4) :
    verticalCurves dx (flat fours ++ rest) =
      fours.mapIdx fun k g =>
        curve (if k = 0 then dx else Scalar.zero) g[0] g[1] g[2] Scalar.zero g[3] := by
  induction fours generalizing dx with
  | nil =>
    match rest with
    | [] | [_] | [_, _] | [_, _, _] => rfl
  | cons g fours ih =>
    rw [flat_cons, toList_four, List.mapIdx_cons]
    simp only [List.cons_append, List.nil_append, verticalCurves, ih, ite_self, if_pos,
      Nat.succ_ne_zero, if_false]

theorem alternatingCurves_cons (isHorizontal : Bool) (d₁ d₂ d₃ d₄ : α) (rest : List α) :
    alternatingCurves isHorizontal (d₁ :: d₂ :: d₃ :: d₄ :: rest) =
      betweenAxes isHorizontal d₁ d₂ d₃ d₄ (leftOver rest) ::
        alternatingCurves (!isHorizontal) rest :=
  match rest with
  | [] | [_] | _ :: _ :: _ => rfl

-- The operand that is left over is for the last curve only.
theorem alternatingCurves_flat (isHorizontal : Bool) (fours : List (Vector α 4))
    (h : rest.length < 4) :
    alternatingCurves isHorizontal (flat fours ++ rest) =
      fours.mapIdx fun k g =>
        let last := if k + 1 = fours.length then leftOver rest else Scalar.zero
        alternate k (betweenAxes isHorizontal g[0] g[1] g[2] g[3] last)
          (betweenAxes (!isHorizontal) g[0] g[1] g[2] g[3] last) := by
  induction fours generalizing isHorizontal with
  | nil =>
    match rest with
    | [] | [_] | [_, _] | [_, _, _] => rfl
  | cons g fours ih =>
    have hl : leftOver (flat fours ++ rest) =
        if 0 + 1 = (g :: fours).length then leftOver rest else Scalar.zero := by
      cases fours with
      | nil => rfl
      | cons g' fours => rw [flat_cons, toList_four]; rfl
    rw [flat_cons, toList_four, List.mapIdx_cons, ← hl]
    simp only [List.cons_append, List.nil_append, alternatingCurves_cons, ih, alternate_succ,
      Bool.not_not, List.length_cons, Nat.add_right_cancel_iff]
    rfl

theorem withLeading_lead (f : α → List α → List (Segment α)) (lead : Option α) {tail : List α}
    (he : tail.length % 2 = 0) (hn : tail ≠ []) :
    withLeading f (lead.toList ++ tail) = f (lead.getD Scalar.zero) tail := by
  have hodd := @odd_length_lead _ lead _ he
  cases lead with
  | some d => exact if_pos (of_decide_eq_true hodd)
  | none =>
    obtain ⟨d, tail, rfl⟩ := List.exists_cons_of_ne_nil hn
    exact if_neg (of_decide_eq_false hodd)

theorem withLeading_fours (f : α → List α → List (Segment α)) (lead : Option α)
    {fours : List (Vector α 4)} (hg : fours ≠ []) (hr : rest.length = 0 ∨ rest.length = 2) :
    withLeading f (lead.toList ++ (flat fours ++ rest)) =
      f (lead.getD Scalar.zero) (flat fours ++ rest) := by
  have hl := le_length_flat_append rest hg
  exact withLeading_lead f lead (even_length_fours fours hr)
    (List.ne_nil_of_length_pos (Nat.lt_of_lt_of_le (by decide) hl))

end Segment

namespace PathOperator

open Scalar Segment

variable {op : PathOperator}

end PathOperator

namespace Machine

end Machine

end PdfGraphics.Charstring
