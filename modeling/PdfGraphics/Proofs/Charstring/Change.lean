import PdfGraphics.Charstring.Machine
/-!
What one token can do.

Whatever the token is, it changes the state in one of a few ways. A property of states that all of
them keep holds throughout a run.
-/

namespace PdfGraphics.Charstring

-- The ways in which a token changes the state, for a font with this nominal width.
inductive State.Change (nominal : Float32) (s : State) : State → Prop
  | same : Change nominal s s
  | push (v : Float32) (room : s.stack.length < maxStack) :
    Change nominal s { s with stack := v :: s.stack }
  | pop {v : Float32} {stack : Stack} (h : s.stack = v :: stack) :
    Change nominal s { s with stack }
  | declareStems : Change nominal s (s.declareStems nominal)
  | move {op : MoveOperator} {s' : State} (h : s.move nominal op = .ok s') : Change nominal s s'
  | draw {op : PathOperator} {s' : State} (h : s.draw op = .ok s') : Change nominal s s'
  | compute {op : Arithmetic} {s' : State} (h : s.compute op = .ok s') : Change nominal s s'
  | finish : Change nominal s (s.finish nominal).1

-- The arithmetic operators have nothing to do with the path, the width or the stems, and only one
-- of them draws a number.
theorem State.compute_frame {op : Arithmetic} {s s' : State} (h : s.compute op = .ok s') :
    s' = { s with
      stack := s'.stack
      transient := s'.transient
      random := if op = .random then Xorshift.next s.random else s.random } := by
  simp only [compute] at h
  split at h
  case h_11 | h_12 | h_14 | h_17 | h_19 | h_20 =>
    have ⟨_, _, he⟩ := map_eq_ok.mp h
    exact he ▸ rfl
  all_goals
    try split at h
  all_goals
    cases h
    try rfl

-- The machine that goes on, or with which the run ended.
def Outcome.machine : Outcome → Machine
  | next m | stop m _ => m

@[simp, grind =] theorem Outcome.machine_next {m : Machine} : (Outcome.next m).machine = m := rfl

@[simp, grind =] theorem Outcome.machine_stop {m : Machine} {e : Option DecodeError} :
    (Outcome.stop m e).machine = m := rfl

-- The subroutines that an operator calls one of.
def Context.subrs? (ctx : Context) : Operator → Option Cff.Index
  | .callsubr => some ctx.localSubrs
  | .callgsubr => some ctx.globalSubrs
  | _ => none

namespace Machine

open State

variable {ctx : Context} {m m' : Machine} {e : Option DecodeError}

theorem change_proceed {nominal : Float32} {result : Except DecodeError State}
    (h : ∀ s, result = .ok s → Change nominal m.state s) :
    Change nominal m.state (m.proceed result).machine.state := by
  cases result with
  | ok s    => exact h s rfl
  | error _ => exact .same

theorem change_call {nominal : Float32} {subrs : Cff.Index} :
    Change nominal m.state (m.call ctx subrs).machine.state := by
  simp only [call]
  split
  case h_1 => exact .same
  case h_2 v stack hv =>
    split
    case h_1 => exact .same
    case h_2 =>
      split
      case isTrue  => exact .pop hv
      case isFalse => exact .same

theorem change_execute {op : Operator} :
    Change ctx.nominalWidth m.state (execute ctx op m).machine.state := by
  cases op with
  | stem          => exact .declareStems
  | mask          =>
    simp only [execute, mask]
    split <;> exact .declareStems
  | move op       => exact change_proceed fun _ h => .move h
  | path op       => exact change_proceed fun _ h => .draw h
  | arithmetic op => exact change_proceed fun _ h => .compute h
  | callsubr      => exact change_call
  | callgsubr     => exact change_call
  | leave         =>
    simp only [execute, leave]
    split <;> exact .same
  | endchar       => exact .finish

theorem change_takeOperand {nominal : Float32} {b : UInt8} :
    Change nominal m.state (m.takeOperand b).machine.state := by
  simp only [takeOperand]
  split
  case h_1 => exact .same
  case h_2 v code _ =>
    simp only [Stack.push]
    by_cases hl : m.state.stack.length < maxStack
    · simpa [hl] using .push _ hl
    · simpa [hl] using .same

theorem readOperator_state {b : UInt8} {result : Except DecodeError Operator}
    (h : m.readOperator ctx b = (m', result)) : m'.state = m.state := by
  simp only [readOperator] at h
  grind

theorem change_takeOperator {b : UInt8} :
    Change ctx.nominalWidth m.state (m.takeOperator ctx b).machine.state := by
  simp only [takeOperator]
  split
  case h_1 hr => exact readOperator_state hr ▸ .same
  case h_2 hr => exact readOperator_state hr ▸ change_execute

theorem change_step : Change ctx.nominalWidth m.state (step ctx m).machine.state := by
  simp only [step]
  split
  case h_1 => exact .same
  case h_2 b code callers _ =>
    split
    case isTrue  => exact @change_takeOperand { m with code, callers } _ _
    case isFalse => exact @change_takeOperator ctx { m with code, callers } _

theorem execute_call {op : Operator} {subrs : Cff.Index} (h : ctx.subrs? op = some subrs) :
    execute ctx op m = m.call ctx subrs := by
  cases op <;> simp only [Context.subrs?, Option.some.injEq, reduceCtorEq] at h <;> subst h <;> rfl

theorem proceed_callers {result : Except DecodeError State} :
    (m.proceed result).machine.callers = m.callers := by
  cases result <;> rfl

-- But for calling and going back, a token leaves the callers alone.
theorem execute_callers {op : Operator} {o : Outcome} (hs : ctx.subrs? op = none)
    (hl : op ≠ .leave) (h : execute ctx op m = o) : o.machine.callers = m.callers := by
  subst h
  cases op with
  | stem          => rfl
  | mask          =>
    simp only [execute, mask]
    split <;> rfl
  | move op       => exact proceed_callers
  | path op       => exact proceed_callers
  | arithmetic op => exact proceed_callers
  | callsubr      => simp [Context.subrs?] at hs
  | callgsubr     => simp [Context.subrs?] at hs
  | leave         => exact absurd rfl hl
  | endchar       => rfl

theorem takeOperand_frame {b : UInt8} : (m.takeOperand b).machine.callers = m.callers ∧
    (m.takeOperand b).machine.spent = m.spent := by
  simp only [takeOperand]
  split
  case h_1 => exact ⟨rfl, rfl⟩
  case h_2 => split <;> exact ⟨rfl, rfl⟩

theorem readOperator_callers {b : UInt8} {result : Except DecodeError Operator}
    (h : m.readOperator ctx b = (m', result)) : m'.callers = m.callers := by
  simp only [readOperator] at h
  grind

end Machine

end PdfGraphics.Charstring
