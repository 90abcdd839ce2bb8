import PdfGraphics.Proofs.Charstring.Routine
/-!
The operators that a run executes.

They are listed in their order, whatever routine they stand in. Operands are not among them, nor is
an operator that is refused before it does anything.
-/

namespace PdfGraphics.Charstring

-- The operators that take hints, moves and the end: of these the first one decides the width, and
-- of these alone some declare stems.
def Operator.decidesWidth : Operator → Bool
  | .stem | .mask | .move _ | .endchar => true
  | _ => false

-- An operator that is executed, and the machine that executes it, which is behind its bytes.
structure Execution where
  op : Operator
  machine : Machine

-- The operands that the operator finds, the top one first.
def Execution.stack (x : Execution) : Stack :=
  x.machine.state.stack

-- What the other operators have nothing to do with.
structure State.Frame (s s' : State) : Prop where
  advance : s'.advance = s.advance
  stems : s'.stems = s.stems
  accented : s'.accented = s.accented

theorem State.move_frame {nominal : Float32} {s s' : State} {op : MoveOperator}
    (h : s.move nominal op = .ok s') : s'.stems = s.stems ∧ s'.accented = s.accented := by
  cases op <;> simp only [move] at h <;> split at h <;> cases h <;> exact ⟨rfl, rfl⟩

namespace Machine

-- What the next token executes, if it does execute an operator.
def execution? (ctx : Context) (m : Machine) : Option Execution :=
  match fetch? m.code m.callers with
  | none => none
  | some (b, code, callers) =>
    if isOperand b then
      none
    else
      match readOperator ctx b { m with code, callers } with
      | (_, .error _) => none
      | (m, .ok op) => some ⟨op, m⟩

-- What the next `n` tokens execute, as far as the run goes.
def executedFor (ctx : Context) : Nat → Machine → List Execution
  | 0, _ => []
  | n + 1, m =>
    (m.execution? ctx).toList ++
      match step ctx m with
      | .next m => executedFor ctx n m
      | .stop _ _ => []

-- What a whole run executes.
def executed (ctx : Context) (m : Machine) : List Execution :=
  executedFor ctx (m.potential ctx + 1) m

variable {ctx : Context} {m m' m₁ m₂ : Machine} {e : Option DecodeError} {n : Nat} {x : Execution}

theorem execution?_eq_some (h : m.execution? ctx = some x) :
    step ctx m = execute ctx x.op x.machine ∧ x.machine.state = m.state := by
  simp only [execution?] at h
  split at h
  case h_1 => cases h
  case h_2 b code callers hf =>
    split at h
    case isTrue => cases h
    case isFalse hb =>
      split at h
      case h_1 => cases h
      case h_2 m₁ op hr =>
        cases h
        have hs := readOperator_state hr
        exact ⟨by simp [step, hf, hb, takeOperator, hr], hs⟩

-- A token that executes nothing is an operand, or it stops the run and changes no state. It only
-- stops it without an error where no byte is left.
theorem execution?_eq_none (h : m.execution? ctx = none) :
    (∃ v stack m', step ctx m = .next m' ∧ m'.state = { m.state with stack := v :: stack }) ∨
      ∃ m' e, step ctx m = .stop m' e ∧ m'.state = m.state ∧
        (e = none → fetch? m.code m.callers = none) := by
  simp only [execution?] at h
  split at h
  case h_1 hf => exact .inr ⟨m, none, by simp [step, hf], rfl, fun _ => hf⟩
  case h_2 b code callers hf =>
    split at h
    case isTrue hb =>
      simp only [step, hf, hb, if_true, takeOperand, Stack.push, fail]
      split
      case h_1 => exact .inr ⟨_, _, rfl, rfl, fun he => by cases he⟩
      case h_2 =>
        split
        case h_1 => exact .inr ⟨_, _, rfl, rfl, fun he => by cases he⟩
        case h_2 stack hp =>
          split at hp
          case isFalse => cases hp
          case isTrue =>
            cases hp
            exact .inl ⟨_, _, _, rfl, rfl⟩
    case isFalse hb =>
      split at h
      case h_1 m₁ e hr =>
        have hs := readOperator_state hr
        have hstep : step ctx m = .stop m₁ (some e) := by
          simp [step, hf, hb, takeOperator, hr, fail]
        exact .inr ⟨m₁, some e, hstep, hs, fun he => by cases he⟩
      case h_2 => cases h

-- A token that does not stop the run is an operand or an operator that is executed.
theorem execution?_of_next (h : step ctx m = .next m') :
    (m.execution? ctx = none ∧ ∃ v stack, m'.state = { m.state with stack := v :: stack }) ∨
      ∃ x, m.execution? ctx = some x ∧ x.machine.state = m.state ∧
        execute ctx x.op x.machine = .next m' := by
  cases hx : m.execution? ctx with
  | none   =>
    obtain ⟨v, stack, _, hs, ha⟩ | ⟨_, _, hs, _⟩ := execution?_eq_none hx
    case inl =>
      cases h.symm.trans hs
      exact .inl ⟨rfl, v, stack, ha⟩
    case inr => cases h.symm.trans hs
  | some x =>
    have ⟨hs, hm⟩ := execution?_eq_some hx
    exact .inr ⟨x, rfl, hm, hs.symm.trans h⟩

theorem call_frame {subrs : Cff.Index} : m.state.Frame (m.call ctx subrs).machine.state := by
  cases hc : m.call ctx subrs with
  | next callee =>
    obtain ⟨_, _, _, _, _, _, he⟩ := call_next.mp hc
    exact he ▸ ⟨rfl, rfl, rfl⟩
  | stop m' e   => exact (call_stop hc).left ▸ ⟨rfl, rfl, rfl⟩

theorem execute_frame {op : Operator} (h : op.decidesWidth = false) :
    m.state.Frame (execute ctx op m).machine.state := by
  cases op with
  | stem | mask | move _ | endchar => cases h
  | path op              =>
    simp only [execute, proceed, State.draw, fail]
    cases op.draw? m.state.stack.reverse m.state.path <;> exact ⟨rfl, rfl, rfl⟩
  | arithmetic op        =>
    simp only [execute]
    cases hc : m.state.compute op with
    | error _ => exact ⟨rfl, rfl, rfl⟩
    | ok s    =>
      rw [State.compute_frame hc]
      exact ⟨rfl, rfl, rfl⟩
  | callsubr | callgsubr => exact call_frame
  | leave                =>
    simp only [execute, leave, fail]
    cases m.callers <;> exact ⟨rfl, rfl, rfl⟩

-- What the operators that go on leave, of those that decide the width.
theorem execute_decides {op : Operator} (hd : op.decidesWidth = true)
    (h : execute ctx op m = .next m') :
    ((op = .stem ∨ op = .mask) ∧ m'.state = m.state.declareStems ctx.nominalWidth) ∨
      ∃ move, op = .move move ∧ m.state.move ctx.nominalWidth move = .ok m'.state := by
  cases op with
  | stem      =>
    cases h
    exact .inl ⟨.inl rfl, rfl⟩
  | mask      =>
    simp only [execute, mask] at h
    split at h <;> cases h
    exact .inl ⟨.inr rfl, rfl⟩
  | move move =>
    simp only [execute, proceed, fail] at h
    split at h <;> cases h
    case h_1 hm => exact .inr ⟨move, rfl, hm⟩
  | endchar   => cases h
  | path _ | arithmetic _ | callsubr | callgsubr | leave => cases hd

namespace Steps

theorem executedFor_add (s : Steps ctx n m m') (k : Nat) :
    executedFor ctx (n + k) m = executedFor ctx n m ++ executedFor ctx k m' := by
  induction s with
  | refl              => rw [Nat.zero_add]; rfl
  | @step n _ _ _ h _ ih =>
    rw [show n + 1 + k = n + k + 1 by omega]
    simp only [executedFor, h, ih, List.append_assoc]

theorem executed_eq (s : Steps ctx n m m₁) (h : Machine.step ctx m₁ = .stop m₂ e) :
    executed ctx m = executedFor ctx n m ++ (m₁.execution? ctx).toList := by
  have hn := s.potential_le
  obtain ⟨k, hk⟩ := Nat.exists_eq_add_of_le (show n + 1 ≤ m.potential ctx + 1 by omega)
  rw [executed, hk, Nat.add_assoc, s.executedFor_add, Nat.add_comm, executedFor]
  simp only [h, List.append_nil]

-- What a run executes before it gets to a machine, and from there on.
theorem executed_append (s : Steps ctx n m m') :
    executed ctx m = executedFor ctx n m ++ executed ctx m' := by
  have ⟨k, m₁, s₁, h⟩ := steps_run ctx m'
  rw [(s.trans s₁).executed_eq h, s₁.executed_eq h, Nat.add_comm, s.executedFor_add,
    List.append_assoc]

end Steps

end Machine

end PdfGraphics.Charstring
