import PdfGraphics.Proofs.Charstring.Path
import PdfGraphics.Proofs.Charstring.Routine
import PdfGraphics.Proofs.Charstring.Taking
/-!
Operators that fail.

A token that stops a run with an error leaves the path as it was. For the operators that draw this
is due to their operands being counted before the first of them is drawn: with fewer than the
operator needs it fails at once, and with enough of them it cannot fail any more.
-/

namespace PdfGraphics.Charstring

-- The operators that draw or move the pen.
inductive PenOperator
  | move (op : MoveOperator)
  | path (op : PathOperator)

namespace PenOperator

def operator : PenOperator → Operator
  | move op => .move op
  | path op => .path op

def minimum : PenOperator → Nat
  | move op => op.minimum
  | path op => op.minimum

def work {α : Type} [Scalar α] : PenOperator → Taking α Unit
  | move op => op.work
  | path op => op.work

end PenOperator

open Taking

namespace State

variable {nominal : Float32} {s : State}

-- A surplus operand lies in front of those that are used.
theorem exists_surplus (s : State) {isSurplus : Nat → Bool} (h : isSurplus 0 = false) :
    ∃ lead : Option Float32, s.stack.reverse = lead.toList ++ s.operands isSurplus ∧
      isSurplus (lead.toList ++ s.operands isSurplus).length = lead.isSome := by
  cases hs : isSurplus s.stack.length with
  | false =>
    have ho : s.operands isSurplus = s.stack.reverse := by simp [operands, hs]
    exact ⟨none, by rw [ho]; rfl, by rw [ho]; simpa using hs⟩
  | true =>
    have hn : s.stack.reverse ≠ [] := by
      rintro hn
      rw [List.reverse_eq_nil_iff.mp hn, List.length_nil, h] at hs
      cases hs
    obtain ⟨d, tail, hd⟩ := List.exists_cons_of_ne_nil hn
    have ho : s.operands isSurplus = tail := by simp [operands, hs, hd]
    refine ⟨some d, by rw [ho, hd]; rfl, ?_⟩
    rw [ho, Option.toList_some, List.singleton_append, ← hd, List.length_reverse]
    exact hs

theorem on_takeLeading (s : State) {isSurplus : Nat → Bool} (h : isSurplus 0 = false) :
    ∃ lead, (takeLeading isSurplus).on ⟨s.stack.reverse, s.path⟩ =
      (.ok lead, ⟨s.operands isSurplus, s.path⟩) := by
  have ⟨lead, he, hl⟩ := s.exists_surplus h
  rw [he]
  exact ⟨lead, Taking.on_takeLeading hl⟩

-- Where the surplus operand is taken, enough are left without it.
theorem le_length_operands (s : State) (n : Nat) :
    n ≤ (s.operands (n < ·)).length ↔ n ≤ s.stack.length := by
  simp only [operands, decide_eq_true_eq]
  split
  case isTrue h  => simp only [List.length_drop, List.length_reverse]; omega
  case isFalse h => rw [List.length_reverse]

theorem move_enough (nominal : Float32) {op : MoveOperator} (h : op.minimum ≤ s.stack.length) :
    ∃ s', s.move nominal op = .ok s' ∧
      op.work.on ⟨s.stack.reverse, s.path⟩ = (.ok (), ⟨[], s'.path⟩) := by
  cases op with
  | rmoveto =>
    obtain ⟨lead, hl⟩ := @on_takeLeading s (2 < ·) rfl
    have hn := (s.le_length_operands 2).mpr h
    cases ho : s.operands (2 < ·) with
    | nil => simp [ho] at hn
    | cons dx rest =>
      cases rest with
      | nil => simp [ho] at hn
      | cons dy rest =>
        rw [ho] at hl
        exact ⟨_, by rw [move, ho], on_bind_ok hl⟩
  | hmoveto | vmoveto =>
    obtain ⟨lead, hl⟩ := @on_takeLeading s (1 < ·) rfl
    have hn := (s.le_length_operands 1).mpr h
    cases ho : s.operands (1 < ·) with
    | nil => simp [ho] at hn
    | cons d rest =>
      rw [ho] at hl
      exact ⟨_, by rw [move, ho], on_bind_ok hl⟩

theorem move_few (nominal : Float32) {op : MoveOperator} (h : s.stack.length < op.minimum) :
    s.move nominal op = .error .stackUnderflow ∧ ∃ left,
      op.work.on ⟨s.stack.reverse, s.path⟩ = (.error .stackUnderflow, ⟨left, s.path⟩) := by
  cases op with
  | rmoveto =>
    obtain ⟨lead, hl⟩ := @on_takeLeading s (2 < ·) rfl
    have hn := (not_congr (s.le_length_operands 2)).mpr (Nat.not_le_of_lt h)
    cases ho : s.operands (2 < ·) with
    | nil =>
      rw [ho] at hl
      exact ⟨by rw [move, ho], _, on_bind_ok hl⟩
    | cons dx rest =>
      cases rest with
      | nil =>
        rw [ho] at hl
        exact ⟨by rw [move, ho], _, on_bind_ok hl⟩
      | cons dy rest => simp [ho] at hn
  | hmoveto | vmoveto =>
    obtain ⟨lead, hl⟩ := @on_takeLeading s (1 < ·) rfl
    have hn := (not_congr (s.le_length_operands 1)).mpr (Nat.not_le_of_lt h)
    cases ho : s.operands (1 < ·) with
    | nil =>
      rw [ho] at hl
      exact ⟨by rw [move, ho], _, on_bind_ok hl⟩
    | cons d rest => simp [ho] at hn

theorem draw_enough {op : PathOperator} (h : op.minimum ≤ s.stack.length) :
    ∃ s', s.draw op = .ok s' ∧
      op.work.on ⟨s.stack.reverse, s.path⟩ = (.ok (), ⟨[], s'.path⟩) := by
  rw [← List.length_reverse] at h
  exact ⟨_, by rw [draw, PathOperator.draw?, if_pos h], op.on_work h⟩

theorem draw_few {op : PathOperator} (h : s.stack.length < op.minimum) :
    s.draw op = .error .stackUnderflow ∧ ∃ left,
      op.work.on ⟨s.stack.reverse, s.path⟩ = (.error .stackUnderflow, ⟨left, s.path⟩) := by
  rw [← List.length_reverse] at h
  exact ⟨by rw [draw, PathOperator.draw?, if_neg (Nat.not_le_of_lt h)], op.on_work_few h⟩

end State

namespace Machine

variable {ctx : Context} {m m' : Machine} {e : DecodeError}

-- With enough operands, no step of the operator fails.
theorem execute_enough (ctx : Context) {op : PenOperator} (h : op.minimum ≤ m.state.stack.length) :
    ∃ s, execute ctx op.operator m = .next { m with state := s } ∧
      op.work.on ⟨m.state.stack.reverse, m.state.path⟩ = (.ok (), ⟨[], s.path⟩) := by
  cases op with
  | move op =>
    have ⟨s, hs, hw⟩ := State.move_enough ctx.nominalWidth h
    exact ⟨s, congrArg m.proceed hs, hw⟩
  | path op =>
    have ⟨s, hs, hw⟩ := State.draw_enough h
    exact ⟨s, congrArg m.proceed hs, hw⟩

-- With too few, the steps fail before anything is drawn.
theorem execute_few (ctx : Context) {op : PenOperator} (h : m.state.stack.length < op.minimum) :
    execute ctx op.operator m = .stop m (some .stackUnderflow) ∧ ∃ left,
      op.work.on ⟨m.state.stack.reverse, m.state.path⟩ =
        (.error .stackUnderflow, ⟨left, m.state.path⟩) := by
  cases op with
  | move op =>
    have ⟨hs, hw⟩ := State.move_few ctx.nominalWidth h
    exact ⟨congrArg m.proceed hs, hw⟩
  | path op =>
    have ⟨hs, hw⟩ := State.draw_few h
    exact ⟨congrArg m.proceed hs, hw⟩

theorem path_proceed {result : Except DecodeError State}
    (h : m.proceed result = .stop m' (some e)) : m'.state.path = m.state.path := by
  cases result with
  | ok s    => cases h
  | error _ => cases h; rfl

theorem path_execute {op : Operator} (h : execute ctx op m = .stop m' (some e)) :
    m'.state.path = m.state.path := by
  cases op with
  | stem          => cases h
  | mask          =>
    simp only [execute, mask] at h
    split at h <;> cases h
    rfl
  | move op       => exact path_proceed h
  | path op       => exact path_proceed h
  | arithmetic op => exact path_proceed h
  | callsubr      => exact (call_stop h).left ▸ rfl
  | callgsubr     => exact (call_stop h).left ▸ rfl
  | leave         =>
    simp only [execute, leave] at h
    split at h <;> cases h
    rfl
  | endchar       =>
    simp only [execute, finish, State.finish] at h
    split at h <;> cases h
    rfl

theorem path_takeOperator {b : UInt8} (h : m.takeOperator ctx b = .stop m' (some e)) :
    m'.state.path = m.state.path := by
  simp only [takeOperator] at h
  split at h
  case h_1 hr =>
    cases h
    rw [readOperator_state hr]
  case h_2 hr => rw [path_execute h, readOperator_state hr]

theorem path_takeOperand {b : UInt8} (h : m.takeOperand b = .stop m' (some e)) :
    m'.state.path = m.state.path := by
  simp only [takeOperand] at h
  split at h
  case h_1 => cases h; rfl
  case h_2 => split at h <;> cases h; rfl

theorem path_step (h : step ctx m = .stop m' (some e)) : m'.state.path = m.state.path := by
  simp only [step] at h
  split at h
  case h_1 => cases h
  case h_2 b code callers _ =>
    split at h
    case isTrue  => exact @path_takeOperand { m with code, callers } _ _ _ h
    case isFalse => exact @path_takeOperator _ { m with code, callers } _ _ _ h

-- An operator that fails leaves the path alone. One that draws fails just where it has too few
-- operands; where it has enough, taking them one by one never fails and comes to the same. So what
-- is drawn when a run fails is what the tokens before had drawn, which is closed if it is open.
theorem failure_draws_nothing (ctx : Context) :
    (∀ b m m' e, takeOperator ctx b m = .stop m' (some e) → m'.state.path = m.state.path) ∧
    (∀ (op : PenOperator) (m : Machine),
      (m.state.stack.length < op.minimum →
        execute ctx op.operator m = .stop m (some .stackUnderflow) ∧ ∃ left,
          op.work.on ⟨m.state.stack.reverse, m.state.path⟩ =
            (.error .stackUnderflow, ⟨left, m.state.path⟩)) ∧
      (op.minimum ≤ m.state.stack.length →
        ∃ s, execute ctx op.operator m = .next { m with state := s } ∧
          op.work.on ⟨m.state.stack.reverse, m.state.path⟩ = (.ok (), ⟨[], s.path⟩))) ∧
    ∀ code m' e, run ctx { code } = (m', some e) → ∃ n m,
      Steps ctx n { code } m ∧ step ctx m = .stop m' (some e) ∧
      (Charstring.run ctx code).1.outline.ops =
        m.state.path.drawn.reverse ++ if m.state.path.isOpen then [.close] else [] := by
  refine ⟨fun _ _ _ _ => path_takeOperator,
    fun op m => ⟨execute_few ctx, execute_enough ctx⟩, fun code m' e h => ?_⟩
  have ⟨n, m, s, hs⟩ := steps_run ctx { code }
  rw [h] at hs
  refine ⟨n, m, s, hs, ?_⟩
  have hd : (Charstring.run ctx code).1.outline = m'.state.path.finish := by
    simp only [Charstring.run, h, State.drawing]
  rw [hd, path_step hs, PathBuilder.finish_ops]

-- A line is drawn. The only operand of the curve behind it is taken for a leading one.
theorem failure_draws_nothing_shortCurve :
    let code : List UInt8 := [140, 141, 5, 140, 27]
    (run {} { code }).2 = some .stackUnderflow ∧
      (Charstring.run {} code).1.outline.ops = [.moveTo .origin, .lineTo ⟨1, 2⟩, .close] ∧
      ∃ n m, Steps {} n { code } m ∧
        step {} m = .stop (run {} { code }).1 (some .stackUnderflow) ∧
        (Charstring.run {} code).1.outline.ops =
          m.state.path.drawn.reverse ++ if m.state.path.isOpen then [.close] else [] := by
  intro code
  have he : (run {} { code }).2 = some .stackUnderflow := by decide +kernel
  have ho : (Charstring.run {} code).1.outline.ops = [.moveTo .origin, .lineTo ⟨1, 2⟩, .close] := by
    decide +kernel
  have ⟨_, _, stopped⟩ := failure_draws_nothing {}
  exact ⟨he, ho, stopped code _ _ (Prod.ext rfl he)⟩

end Machine

end PdfGraphics.Charstring
