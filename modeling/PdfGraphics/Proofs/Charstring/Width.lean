import PdfGraphics.Proofs.Charstring.Execution
import PdfGraphics.Proofs.Charstring.Failure
/-!
The advance width of a run.

The first operator that may have the width below its own operands decides it, with them or without.
No operator before that one or after it has to do with the width.
-/

namespace PdfGraphics.Charstring

namespace Operator

-- Whether `n` operands are one more than an operator takes that may have the width below them.
def hasSurplus : Operator → Nat → Bool
  | stem, n | mask, n => n % 2 = 1
  | move .rmoveto, n => 2 < n
  | move .hmoveto, n | move .vmoveto, n => 1 < n
  | endchar, n => n = 1 || n = 5
  | _, _ => false

-- The bottom operand, where it is one too many.
def surplus? (op : Operator) (stack : Stack) : Option Float32 :=
  if op.hasSurplus stack.length then stack.getLast? else none

end Operator

-- The width for which the operators that were executed account.
def decidedWidth (ctx : Context) (executed : List Execution) : Float32 :=
  match executed.find? (·.op.decidesWidth) with
  | none => ctx.defaultWidth
  | some x => (x.op.surplus? x.stack).elim ctx.defaultWidth (ctx.nominalWidth + ·)

namespace Advance

-- The advance after some operators have been executed.
def after (nominal : Float32) (executed : List Execution) (a : Advance) : Advance :=
  match executed.find? (·.op.decidesWidth) with
  | none => a
  | some x => a.decide nominal (x.op.surplus? x.stack)

variable {nominal : Float32} {a : Advance} {executed executed' : List Execution} {x : Execution}

-- What was decided once stays.
theorem decide_decide (surplus surplus' : Option Float32) :
    (a.decide nominal surplus).decide nominal surplus' = a.decide nominal surplus := by
  cases a with
  | undecided        => cases surplus <;> rfl
  | standard | own _ => rfl

theorem width_decide_undecided (surplus : Option Float32) (w : Float32) :
    (undecided.decide nominal surplus).width w = surplus.elim w (nominal + ·) := by
  cases surplus <;> rfl

theorem width_decide_none (w : Float32) : (a.decide nominal none).width w = a.width w := by
  cases a <;> rfl

@[simp] theorem after_nil : a.after nominal [] = a := rfl

theorem after_append :
    a.after nominal (executed ++ executed') =
      (a.after nominal executed).after nominal executed' := by
  simp only [after, List.find?_append]
  cases executed.find? (·.op.decidesWidth) with
  | none   => rfl
  | some x =>
    cases executed'.find? (·.op.decidesWidth) with
    | none   => rfl
    | some _ => exact (decide_decide _ _).symm

theorem after_decides (h : x.op.decidesWidth = true) :
    a.after nominal [x] = a.decide nominal (x.op.surplus? x.stack) := by
  simp [after, h]

theorem after_passes (h : x.op.decidesWidth = false) : a.after nominal [x] = a := by
  simp [after, h]

theorem width_after (ctx : Context) (executed : List Execution) :
    (undecided.after ctx.nominalWidth executed).width ctx.defaultWidth =
      decidedWidth ctx executed := by
  simp only [after, decidedWidth]
  cases executed.find? (·.op.decidesWidth) with
  | none   => rfl
  | some _ => exact width_decide_undecided _ _

end Advance

theorem decidedWidth_append {ctx : Context} {executed : List Execution}
    (h : executed.any (·.op.decidesWidth) = true) (executed' : List Execution) :
    decidedWidth ctx (executed ++ executed') = decidedWidth ctx executed := by
  simp only [decidedWidth, List.find?_append]
  cases hx : executed.find? (·.op.decidesWidth) with
  | none   =>
    have hn := List.find?_eq_none.mp hx
    simp only [List.any_eq_true] at h
    obtain ⟨x, hm, hd⟩ := h
    exact absurd hd (hn x hm)
  | some _ => rfl

theorem decidedWidth_none {ctx : Context} {executed : List Execution}
    (h : executed.any (·.op.decidesWidth) = false) :
    decidedWidth ctx executed = ctx.defaultWidth := by
  simp only [List.any_eq_false] at h
  simp only [decidedWidth, List.find?_eq_none.mpr h]

namespace State

variable {nominal : Float32} {s s' : State}

theorem move_advance {op : MoveOperator} (h : s.move nominal op = .ok s') :
    s'.advance = s.advance.decide nominal ((Operator.move op).surplus? s.stack) := by
  cases op <;> simp only [move] at h <;> split at h <;> cases h <;> rfl

-- A move that fails has too few operands to have one too many.
theorem surplus?_of_move_error {op : MoveOperator} {e : DecodeError}
    (h : s.move nominal op = .error e) : (Operator.move op).surplus? s.stack = none := by
  have hn : s.stack.length < op.minimum := by
    refine Nat.lt_of_not_le fun hl => ?_
    obtain ⟨_, ho, _⟩ := move_enough nominal hl
    cases h.symm.trans ho
  have hs : (Operator.move op).hasSurplus s.stack.length = false := by
    cases op <;> simp only [Operator.hasSurplus, decide_eq_false_iff_not] <;>
      simp only [MoveOperator.minimum] at hn <;> omega
  simp [Operator.surplus?, hs]

theorem finish_advance :
    (s.finish nominal).1.advance =
      s.advance.decide nominal (Operator.endchar.surplus? s.stack) := by
  simp only [finish]
  split <;> rfl

end State

namespace Machine

open Advance

variable {ctx : Context} {m m' : Machine} {e : Option DecodeError} {n : Nat} {x : Execution}

-- An operator that fails may leave open what it would decide, but then that is the default width.
theorem advance_execute {op : Operator} {o : Outcome} (hd : op.decidesWidth = true)
    (h : execute ctx op m = o) :
    (∀ m', o = .next m' →
      m'.state.advance = m.state.advance.decide ctx.nominalWidth (op.surplus? m.state.stack)) ∧
    o.machine.state.advance.width ctx.defaultWidth =
      (m.state.advance.decide ctx.nominalWidth (op.surplus? m.state.stack)).width
        ctx.defaultWidth := by
  -- All of them decide, but for a move that fails.
  have settled (ha : o.machine.state.advance =
      m.state.advance.decide ctx.nominalWidth (op.surplus? m.state.stack)) := by
    exact And.intro (fun m' (he : o = .next m') => he ▸ ha) (congrArg (width ctx.defaultWidth) ha)
  cases op with
  | stem    => exact settled (h ▸ rfl)
  | mask    =>
    simp only [execute, mask] at h
    split at h <;> exact settled (h ▸ rfl)
  | move op =>
    simp only [execute] at h
    cases hm : m.state.move ctx.nominalWidth op with
    | ok s    =>
      rw [hm] at h
      exact settled (h ▸ State.move_advance hm)
    | error e =>
      rw [hm] at h
      subst h
      rw [State.surplus?_of_move_error hm, width_decide_none]
      exact ⟨fun _ he => (by cases he), rfl⟩
  | endchar => exact settled (h ▸ State.finish_advance)
  | path _ | arithmetic _ | callsubr | callgsubr | leave => cases hd

theorem advance_step (ctx : Context) (m : Machine) :
    (∀ m', step ctx m = .next m' → m'.state.advance =
      m.state.advance.after ctx.nominalWidth (m.execution? ctx).toList) ∧
    (step ctx m).machine.state.advance.width ctx.defaultWidth =
      (m.state.advance.after ctx.nominalWidth (m.execution? ctx).toList).width
        ctx.defaultWidth := by
  cases hx : m.execution? ctx with
  | none   =>
    rw [Option.toList_none, after_nil]
    cases execution?_eq_none hx with
    | inl ho =>
      obtain ⟨v, stack, m', hs, ha⟩ := ho
      rw [hs, Outcome.machine_next, ha]
      exact ⟨fun _ he => Outcome.next.inj he ▸ ha ▸ rfl, rfl⟩
    | inr ho =>
      obtain ⟨m', e, hs, ha, _⟩ := ho
      rw [hs, Outcome.machine_stop, ha]
      exact ⟨fun _ he => (by cases he), rfl⟩
  | some x =>
    have ⟨hs, hm⟩ := execution?_eq_some hx
    rw [Option.toList_some, hs, ← hm]
    cases hd : x.op.decidesWidth with
    | true  =>
      rw [after_decides hd]
      exact advance_execute hd rfl
    | false =>
      have ha := (@execute_frame ctx x.machine _ hd).advance
      rw [after_passes hd, ← ha]
      exact ⟨fun _ he => he ▸ rfl, rfl⟩

theorem Steps.advance (s : Steps ctx n m m') :
    m'.state.advance = m.state.advance.after ctx.nominalWidth (executedFor ctx n m) := by
  induction s with
  | refl                  => rfl
  | @step n m m' _ h _ ih =>
    have ha := (advance_step ctx m).left m' h
    simp only [executedFor, h]
    rw [after_append, ← ha]
    exact ih

end Machine

-- The width is decided by the first operator that takes hints, moves or ends the charstring, in
-- whatever routine it stands and whether it fails or not. Until then the machine has the default
-- width, and from then on the one with which the run ends.
theorem run_width (ctx : Context) (code : List UInt8) :
    (run ctx code).1.width = decidedWidth ctx (Machine.executed ctx { code }) ∧
    ∀ n m, Machine.Steps ctx n { code } m →
      m.state.advance.width ctx.defaultWidth =
        if (Machine.executedFor ctx n { code }).any (·.op.decidesWidth) then
          (run ctx code).1.width
        else
          ctx.defaultWidth := by
  have ⟨n, m, s, h⟩ := Machine.steps_run ctx { code }
  have hrun : (run ctx code).1.width = decidedWidth ctx (Machine.executed ctx { code }) := by
    have ha := (Machine.advance_step ctx m).right
    rw [h, s.advance, ← Advance.after_append, ← s.executed_eq h] at ha
    rw [← Advance.width_after, ← ha]
    rfl
  refine ⟨hrun, fun k m' s' => ?_⟩
  rw [s'.advance, Advance.width_after, hrun, s'.executed_append]
  split
  case isTrue hd  => exact (decidedWidth_append hd _).symm
  case isFalse hd => exact decidedWidth_none (Bool.of_not_eq_true hd)

-- A subroutine that declares a stem, above one more operand.
def widthInRoutine : Context where
  localSubrs := { entries := #[(0, [149, 139, 144, 1])] }
  defaultWidth := 500
  nominalWidth := 600

-- The surplus operand of the move after it is dropped, and the line that fails does not matter.
theorem run_width_inRoutine :
    (run widthInRoutine [32, 10, 189, 140, 141, 21, 5]).2 = some .stackUnderflow ∧
    (run widthInRoutine [32, 10, 189, 140, 141, 21, 5]).1.width = 610 ∧
    (∃ m, Machine.Steps widthInRoutine 5 { code := [32, 10, 189, 140, 141, 21, 5] } m ∧
      m.state.advance.width 500 = 500) ∧
    ∃ m, Machine.Steps widthInRoutine 6 { code := [32, 10, 189, 140, 141, 21, 5] } m ∧
      m.state.advance.width 500 = 610 := by
  have ⟨hw, hs⟩ := run_width widthInRoutine [32, 10, 189, 140, 141, 21, 5]
  have s₅ : Machine.Steps widthInRoutine 5 { code := [32, 10, 189, 140, 141, 21, 5] } _ :=
    .step rfl (.step rfl (.step rfl (.step rfl (.step rfl .refl))))
  have s₆ : Machine.Steps widthInRoutine 6 { code := [32, 10, 189, 140, 141, 21, 5] } _ :=
    s₅.trans (.step rfl .refl)
  have h₅ := hs _ _ s₅
  have h₆ := hs _ _ s₆
  exact ⟨by decide +kernel, hw.trans (by decide +kernel), ⟨_, s₅, h₅.trans (by decide +kernel)⟩,
    _, s₆, h₆.trans (by decide +kernel)⟩

end PdfGraphics.Charstring
