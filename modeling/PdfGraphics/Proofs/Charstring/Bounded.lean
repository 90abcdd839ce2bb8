import Mathlib.Data.List.Rotate
import PdfGraphics.Proofs.Charstring.Steps
/-!
Bounds on what a run does.

Neither the stack nor the nesting of calls grows without limit, and subroutines that call themselves
or each other do not keep a run from its end.
-/

namespace PdfGraphics.Charstring

namespace Stack

theorem rotateLeft_eq_rotate {α : Type} (xs : List α) (i : Nat) : xs.rotateLeft i = xs.rotate i := by
  rw [List.rotate_eq_drop_append_take_mod, List.rotateLeft]
  split
  case isTrue h =>
    match xs, h with
    | [], _  => simp
    | [_], _ => simp [Nat.mod_one]
  case isFalse => rfl

theorem push_length {v : Float32} {s s' : Stack} (h : push v s = .ok s') :
    s'.length ≤ maxStack := by
  simp only [push] at h
  split at h
  case isFalse => simp at h
  case isTrue hl =>
    cases h
    exact hl

theorem copy_length {i : Int} {s s' : Stack} (h : copy i s = .ok s') : s'.length ≤ maxStack := by
  simp only [copy, bind, Except.bind] at h
  split at h
  case h_1 => simp at h
  case h_2 => exact push_length h

theorem roll_length {n j : Int} {s s' : Stack} (h : roll n j s = .ok s') :
    s'.length = s.length := by
  simp only [roll] at h
  split at h
  case isTrue => simp at h
  case isFalse =>
    split at h
    case isTrue => simp at h
    case isFalse =>
      cases h
      simp only [rotateLeft_eq_rotate, List.length_append, List.length_rotate, List.length_take,
        List.length_drop]
      omega

end Stack

namespace State

open Stack

variable {nominal : Float32} {s s' : State}

theorem compute_length {op : Arithmetic} (h : s.compute op = .ok s')
    (hl : s.stack.length ≤ maxStack) : s'.stack.length ≤ maxStack := by
  simp only [compute] at h
  split at h
  all_goals
    try simp only [‹s.stack = _›, List.length_cons] at hl
    try split at h
  all_goals
    try cases h
  -- What is left takes its result from an operation on the stack, or from the transient array.
  case h_14 | h_17 =>
    obtain ⟨_, hp, he⟩ := map_eq_ok.mp h
    subst he
    exact push_length hp
  case h_19 =>
    obtain ⟨_, hc, he⟩ := map_eq_ok.mp h
    subst he
    exact copy_length hc
  case h_20 =>
    obtain ⟨_, hr, he⟩ := map_eq_ok.mp h
    subst he
    have := roll_length hr
    simp only
    omega
  case h_11 | h_12 =>
    obtain ⟨_, _, he⟩ := map_eq_ok.mp h
    subst he
    simp only [List.length_cons]
    omega
  all_goals
    simp only [List.length_cons]
    omega

theorem move_stack {op : MoveOperator} (h : s.move nominal op = .ok s') : s'.stack = [] := by
  simp only [move] at h
  split at h <;> split at h <;> simp at h <;> subst h <;> rfl

theorem draw_stack {op : PathOperator} (h : s.draw op = .ok s') : s'.stack = [] := by
  simp only [draw] at h
  split at h <;> simp at h
  subst h
  rfl

theorem finish_stack : (s.finish nominal).1.stack = [] := by
  simp only [finish]
  split <;> rfl

theorem Change.length_le (c : Change nominal s s') (hl : s.stack.length ≤ maxStack) :
    s'.stack.length ≤ maxStack := by
  cases c with
  | same         => exact hl
  | push _ room  => exact room
  | pop h        => exact Nat.le_of_succ_le (by simpa [h] using hl)
  | declareStems => exact Nat.zero_le _
  | move h       => simp [move_stack h]
  | draw h       => simp [draw_stack h]
  | compute h    => exact compute_length h hl
  | finish       => simp [finish_stack]

end State

namespace Machine

variable {ctx : Context} {m m' : Machine}

-- What one run never exceeds.
structure Bounded (ctx : Context) (m : Machine) : Prop where
  stack : m.state.stack.length ≤ maxStack
  depth : m.callers.length ≤ ctx.limits.maxCallDepth
  spent : m.spent ≤ ctx.limits.maxOperators

theorem call_depth {subrs : Cff.Index} (h : m.callers.length ≤ ctx.limits.maxCallDepth) :
    (m.call ctx subrs).machine.callers.length ≤ ctx.limits.maxCallDepth := by
  simp only [call]
  split
  case h_1 => exact h
  case h_2 =>
    split
    case h_1 => exact h
    case h_2 =>
      split
      case isTrue hd => exact hd
      case isFalse   => exact h

theorem leave_depth : m.leave.machine.callers.length ≤ m.callers.length := by
  simp only [leave]
  split
  case h_1     => exact Nat.le_refl _
  case h_2 h   => simp [h]

theorem execute_depth {op : Operator} (h : m.callers.length ≤ ctx.limits.maxCallDepth) :
    (execute ctx op m).machine.callers.length ≤ ctx.limits.maxCallDepth := by
  cases hs : ctx.subrs? op with
  | some subrs => exact execute_call hs ▸ call_depth h
  | none       =>
    by_cases hl : op = .leave
    case pos => exact hl ▸ leave_depth.trans h
    case neg =>
      rw [execute_callers hs hl rfl]
      exact h

theorem readOperator_spent_le {b : UInt8} {result : Except DecodeError Operator}
    (hr : m.readOperator ctx b = (m', result)) (h : m.spent ≤ ctx.limits.maxOperators) :
    m'.spent ≤ ctx.limits.maxOperators := by
  simp only [readOperator] at hr
  grind

theorem execute_machine_spent {op : Operator} : (execute ctx op m).machine.spent = m.spent := by
  cases op <;> simp only [execute, mask, proceed, call, leave, finish, fail] <;> grind

theorem takeOperator_depth {b : UInt8} (h : m.callers.length ≤ ctx.limits.maxCallDepth) :
    (m.takeOperator ctx b).machine.callers.length ≤ ctx.limits.maxCallDepth := by
  simp only [takeOperator]
  split
  case h_1 hr => exact readOperator_callers hr ▸ h
  case h_2 hr => exact execute_depth (readOperator_callers hr ▸ h)

theorem takeOperator_spent_le {b : UInt8} (h : m.spent ≤ ctx.limits.maxOperators) :
    (m.takeOperator ctx b).machine.spent ≤ ctx.limits.maxOperators := by
  simp only [takeOperator]
  split
  case h_1 hr => exact readOperator_spent_le hr h
  case h_2 hr => simpa [execute_machine_spent] using readOperator_spent_le hr h

theorem fetch?_depth {code code' : List UInt8} {callers callers' : List (List UInt8)} {b : UInt8}
    (h : fetch? code callers = some (b, code', callers')) : callers'.length ≤ callers.length := by
  induction callers generalizing code with
  | nil => cases code <;> simp_all [fetch?]
  | cons c callers ih =>
    cases code with
    | nil      => exact Nat.le_succ_of_le (ih (by simpa [fetch?] using h))
    | cons _ _ => simp_all [fetch?]

theorem Bounded.start {code : List UInt8} : Bounded ctx { code } :=
  ⟨Nat.zero_le _, Nat.zero_le _, Nat.zero_le _⟩

theorem Bounded.step (h : Bounded ctx m) : Bounded ctx (step ctx m).machine where
  stack := change_step.length_le h.stack
  depth := by
    simp only [Machine.step]
    split
    case h_1 => exact h.depth
    case h_2 hf =>
      have hd := (fetch?_depth hf).trans h.depth
      split
      case isTrue  => simpa [takeOperand_frame] using hd
      case isFalse => exact takeOperator_depth hd
  spent := by
    simp only [Machine.step]
    split
    case h_1 => exact h.spent
    case h_2 =>
      split
      case isTrue  => simpa [takeOperand_frame] using h.spent
      case isFalse => exact takeOperator_spent_le h.spent

theorem bounded_run {code : List UInt8} : Bounded ctx (run ctx { code }).1 :=
  run_preserves (fun _ h => h.step) .start

theorem potential_start {code : List UInt8} :
    potential ctx { code } < 49 * (ctx.limits.maxOperators + 1) := by
  simp [potential, maxStack]
  omega

-- Whatever the charstring and its subroutines are, its run stays within the limits, and it ends. The
-- machine `m` has `n` tokens behind it and takes at most one more if it stops.
theorem run_bounded (ctx : Context) (code : List UInt8) :
    (∀ n m, Steps ctx n { code } m →
      Bounded ctx m ∧ Bounded ctx (step ctx m).machine ∧
        n + 1 ≤ 49 * (ctx.limits.maxOperators + 1)) ∧
    (∃ n m, Steps ctx n { code } m ∧
      step ctx m = .stop (run ctx { code }).1 (run ctx { code }).2) ∧
    ∀ fuel, 49 * (ctx.limits.maxOperators + 1) ≤ fuel →
      runFor ctx fuel { code } = some (run ctx { code }) := by
  refine ⟨fun n m s => ?_, steps_run ctx _, fun fuel h => ?_⟩
  · have hb : Bounded ctx m := s.preserves (fun _ h => h.step) .start
    have hn := s.potential_le
    have := @potential_start ctx code
    exact ⟨hb, hb.step, by omega⟩
  · exact runFor_of_potential_lt (potential_start.trans_le h)

-- The only local subroutine calls itself.
def selfCalling (limits : Limits) : Context where
  localSubrs := { entries := #[(0, [32, 10])] }
  limits := limits

-- It does so until its calls would nest too deep.
theorem run_bounded_selfCalling :
    (∃ m, Steps (selfCalling ⟨2, 5⟩) 2 { code := [32, 10] } m ∧ m.callers = [[]] ∧
      Bounded (selfCalling ⟨2, 5⟩) m ∧ 3 ≤ 49 * 6) ∧
    (run (selfCalling ⟨2, 5⟩) { code := [32, 10] }).2 = some (.recursionLimitExceeded 3) := by
  have s : Steps (selfCalling ⟨2, 5⟩) 2 { code := [32, 10] } _ := .step rfl (.step rfl .refl)
  have ⟨hb, _, hn⟩ := (run_bounded (selfCalling ⟨2, 5⟩) [32, 10]).left _ _ s
  exact ⟨⟨_, s, rfl, hb, hn⟩, by decide +kernel⟩

end Machine

end PdfGraphics.Charstring
