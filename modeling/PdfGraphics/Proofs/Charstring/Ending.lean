import PdfGraphics.Proofs.Charstring.Alike
import PdfGraphics.Proofs.Charstring.Token
import PdfGraphics.Proofs.Charstring.Width
/-!
The end of a charstring.

Bytes after those that a run needs have no part in it, and bytes that merely end are as good as an
operator that ends the charstring.
-/

namespace PdfGraphics.Charstring

-- The bytes still to come are those of another machine, but that the charstring itself, which is
-- the last of the callers, goes on with `after`.
inductive Longer (after : List UInt8) :
    List UInt8 → List (List UInt8) → List UInt8 → List (List UInt8) → Prop
  | charstring {code : List UInt8} : Longer after code [] (code ++ after) []
  | caller {code code₁ code₁' : List UInt8} {callers callers' : List (List UInt8)} :
    (Longer after code₁ callers code₁' callers') →
    Longer after code (code₁ :: callers) code (code₁' :: callers')

structure Machine.Longer (after : List UInt8) (m m' : Machine) : Prop where
  state : m'.state = m.state
  spent : m'.spent = m.spent
  bytes : Charstring.Longer after m.code m.callers m'.code m'.callers

-- The bytes end before what is to be taken from them.
def Outcome.IsShort (o : Outcome) : Prop :=
  ∃ m, o = .stop m (some .unexpectedEof)

variable {after code code' rest : List UInt8} {callers callers' : List (List UInt8)} {b : UInt8}

namespace Longer

theorem length_callers (h : Longer after code callers code' callers') :
    callers'.length = callers.length := by
  induction h with
  | charstring  => rfl
  | caller _ ih => simp [ih]

-- What the first machine can take, the other one can, and it is the same.
theorem drop (h : Longer after code callers code' callers') {k : Nat} (hk : k ≤ code.length) :
    k ≤ code'.length ∧ code'.take k = code.take k ∧
      Longer after (code.drop k) callers (code'.drop k) callers' := by
  cases h with
  | charstring =>
    refine ⟨by rw [List.length_append]; omega, List.take_append_of_le_length hk, ?_⟩
    rw [List.drop_append_of_le_length hk]
    exact .charstring
  | caller h   => exact ⟨hk, rfl, .caller h⟩

theorem reads {α : Type} {read : List UInt8 → Option (α × List UInt8)} {tail : Nat} {a : α}
    (hr : ReadsTail read tail) (h : Longer after code callers code' callers')
    (ha : read code = some (a, rest)) :
    ∃ rest', read code' = some (a, rest') ∧ Longer after rest callers rest' callers' := by
  have ⟨f, hr⟩ := hr
  rw [hr] at ha
  split at ha
  case isFalse   => cases ha
  case isTrue hk =>
    have ⟨hk', ht, hd⟩ := h.drop hk
    cases ha
    exact ⟨_, by rw [hr, if_pos hk', ht], hd⟩

-- The next byte is the same, if there is one before the charstring ends.
theorem fetch? {callers₁ : List (List UInt8)} (h : Longer after code callers code' callers')
    (hf : Machine.fetch? code callers = some (b, rest, callers₁)) :
    ∃ rest' callers₁', Machine.fetch? code' callers' = some (b, rest', callers₁') ∧
      Longer after rest callers₁ rest' callers₁' := by
  induction h with
  | @charstring code =>
    cases code with
    | nil      => cases hf
    | cons _ _ =>
      cases hf
      exact ⟨_, _, rfl, .charstring⟩
  | @caller code _ _ _ _ h ih =>
    cases code with
    | nil      => exact ih hf
    | cons _ _ =>
      cases hf
      exact ⟨_, _, rfl, .caller h⟩

theorem fetch?_none (h : Longer after code callers code' callers')
    (hf : Machine.fetch? code callers = none) :
    Machine.fetch? code' callers' = Machine.fetch? after [] := by
  induction h with
  | @charstring code =>
    cases code with
    | nil      => rfl
    | cons _ _ => cases hf
  | @caller code _ _ _ _ _ ih =>
    cases code with
    | nil      => exact ih hf
    | cons _ _ => cases hf

end Longer

namespace Machine

open Outcome

variable {ctx : Context} {m m' m₁ m₂ : Machine} {op : Operator} {n : Nat} {e : Option DecodeError}

theorem Longer.takeOperand (h : Machine.Longer after m m') (hb : isOperand b = true) :
    Alike (Machine.Longer after) (m.takeOperand b) (m'.takeOperand b) ∨
      Outcome.IsShort (m.takeOperand b) := by
  have ⟨read, hread, he⟩ := exists_readFrom hb
  simp only [Machine.takeOperand, he, h.state]
  cases hr : read m.code with
  | none   => exact .inr ⟨_, rfl⟩
  | some r =>
    obtain ⟨v, rest⟩ := r
    obtain ⟨rest', hr', hl⟩ := h.bytes.reads hread hr
    simp only [hr', need, Option.elim_some]
    refine .inl ?_
    cases Stack.push v.toBinary32 m.state.stack with
    | error _ => exact .stop h.state
    | ok _    => exact .next ⟨rfl, h.spent, hl⟩

theorem Longer.call {subrs : Cff.Index} (h : Machine.Longer after m m') :
    Alike (Machine.Longer after) (m.call ctx subrs) (m'.call ctx subrs) := by
  have hd := h.bytes.length_callers
  simp only [Machine.call, h.state, hd]
  split
  case h_1 => exact .stop h.state
  case h_2 =>
    split
    case h_1 => exact .stop h.state
    case h_2 =>
      split
      case isTrue  => exact .next ⟨rfl, h.spent, .caller h.bytes⟩
      case isFalse => exact .stop h.state

theorem Longer.leave (h : Machine.Longer after m m') :
    Alike (Machine.Longer after) m.leave m'.leave := by
  have hb := h.bytes
  simp only [Machine.leave]
  generalize m.code = code, m.callers = callers, m'.code = code', m'.callers = callers' at hb
  cases hb with
  | charstring => exact .stop h.state
  | caller hb  => exact .next ⟨h.state, h.spent, hb⟩

theorem Longer.mask (h : Machine.Longer after m m') :
    Alike (Machine.Longer after) (m.mask ctx) (m'.mask ctx) ∨ (m.mask ctx).IsShort := by
  simp only [Machine.mask, Bytes.skip?_eq, h.state]
  generalize m.state.declareStems ctx.nominalWidth = s
  by_cases hk : s.maskSize ≤ m.code.length
  case pos =>
    obtain ⟨hk', _, hl⟩ := h.bytes.drop hk
    rw [if_pos hk, if_pos hk']
    exact .inl (.next ⟨rfl, h.spent, hl⟩)
  case neg =>
    rw [if_neg hk]
    exact .inr ⟨_, rfl⟩

theorem Longer.execute (h : Machine.Longer after m m') :
    Alike (Machine.Longer after) (execute ctx op m) (execute ctx op m') ∨
      Outcome.IsShort (execute ctx op m) := by
  by_cases ho : op.stays
  case pos => exact .inl (alike_execute rfl ho h.state fun _ => ⟨rfl, h.spent, h.bytes⟩)
  case neg =>
    cases op with
    | mask      => exact h.mask
    | callsubr  => exact .inl h.call
    | callgsubr => exact .inl h.call
    | leave     => exact .inl h.leave
    | _         => exact absurd rfl ho

theorem Longer.takeOperator (h : Machine.Longer after m m') :
    Alike (Machine.Longer after) (m.takeOperator ctx b) (m'.takeOperator ctx b) ∨
      (m.takeOperator ctx b).IsShort := by
  simp only [Machine.takeOperator, readOperator, h.spent]
  by_cases hs : m.spent < ctx.limits.maxOperators
  case neg =>
    simp only [hs, if_false]
    exact .inl (.stop h.state)
  case pos =>
    simp only [hs, if_true]
    cases hr : Operator.number? b m.code with
    | none   => exact .inr ⟨_, rfl⟩
    | some r =>
      obtain ⟨number, rest⟩ := r
      obtain ⟨rest', hr', hl⟩ := h.bytes.reads (.operator b) hr
      simp only [hr']
      cases Operator.ofNumber? number with
      | none    => exact .inl (.stop h.state)
      | some op => exact Longer.execute ⟨h.state, rfl, hl⟩

-- A token that is whole is the same where the charstring is longer.
theorem Longer.step (ctx : Context) (h : Machine.Longer after m m') :
    Alike (Machine.Longer after) (step ctx m) (step ctx m') ∨
      (Machine.step ctx m).IsShort ∨ fetch? m.code m.callers = none := by
  simp only [Machine.step]
  cases hf : fetch? m.code m.callers with
  | none   => exact .inr (.inr rfl)
  | some r =>
    obtain ⟨b, rest, callers⟩ := r
    obtain ⟨rest', callers', hf', hl⟩ := h.bytes.fetch? hf
    have hm : Machine.Longer after { m with code := rest, callers }
        { m' with code := rest', callers := callers' } := ⟨h.state, h.spent, hl⟩
    simp only [hf', reduceCtorEq, or_false]
    by_cases hb : isOperand b
    case pos =>
      simp only [hb, if_true]
      exact hm.takeOperand hb
    case neg =>
      simp only [hb]
      exact hm.takeOperator

theorem Longer.steps (s : Steps ctx n m m₁) (h : Machine.Longer after m m') :
    ∃ m₁', Steps ctx n m' m₁' ∧ Machine.Longer after m₁ m₁' := by
  induction s generalizing m' with
  | refl                     => exact ⟨m', .refl, h⟩
  | @step n m m₂ m₁ hs s ih =>
    obtain ha | ⟨_, he⟩ | hf := h.step ctx
    case inl     =>
      generalize hs' : Machine.step ctx m' = o at ha
      rw [hs] at ha
      cases ha with
      | next h₂ =>
        have ⟨m₁', s', h₁⟩ := ih h₂
        exact ⟨m₁', .step hs' s', h₁⟩
    case inr.inl => cases hs.symm.trans he
    case inr.inr => simp [Machine.step, hf] at hs

-- An operator that ends the charstring is the last one that a run executes.
theorem Steps.endchar_notMem (s : Steps ctx n m m₁) :
    Operator.endchar ∉ (executedFor ctx n m).map (·.op) := by
  induction s with
  | refl => exact List.not_mem_nil
  | @step n m m₂ m₁ hs s ih =>
    simp only [executedFor, hs, List.map_append, List.mem_append, not_or]
    refine ⟨fun hx => ?_, ih⟩
    cases hm : m.execution? ctx with
    | none   => simp [hm] at hx
    | some x =>
      have hx : .endchar = x.op := by simpa [hm] using hx
      have he := (execution?_eq_some hm).left
      rw [← hx] at he
      cases hs.symm.trans he

theorem Steps.execution?_endchar (s : Steps ctx n m m₁) (hs : Machine.step ctx m₁ = .stop m₂ e) :
    Operator.endchar ∈ (executed ctx m).map (·.op) ↔
      (m₁.execution? ctx).map (·.op) = some .endchar := by
  rw [s.executed_eq hs, List.map_append, List.mem_append, or_iff_right s.endchar_notMem]
  cases m₁.execution? ctx with
  | none   => simp
  | some x => simp [eq_comm]

end Machine

theorem error_of_standardCode {v : Float32} {error : DecodeError}
    (h : standardCode v = .error error) : error = .invalidOperand := by
  simp only [standardCode] at h
  split at h <;> cases h
  rfl

namespace State

variable {nominal : Float32} {s : State}

theorem error_of_accentedOf? {operands : List Float32} {error : DecodeError}
    (h : accentedOf? operands = .error error) : error = .invalidOperand := by
  simp only [accentedOf?] at h
  split at h
  case h_1 adx ady base accent =>
    cases hb : standardCode base with
    | error _ =>
      rw [hb] at h
      cases h
      exact error_of_standardCode hb
    | ok _    =>
      cases ha : standardCode accent with
      | error _ =>
        rw [hb, ha] at h
        cases h
        exact error_of_standardCode ha
      | ok _    =>
        rw [hb, ha] at h
        cases h
  case h_2 => cases h

theorem error_of_finish {error : DecodeError} (h : (s.finish nominal).2 = some error) :
    error = .invalidOperand := by
  simp only [finish] at h
  split at h
  case h_1   => cases h
  case h_2 he =>
    cases h
    exact error_of_accentedOf? he

-- With no operands that mean anything to it, the end only closes the outline.
theorem drawing_finish (nominal : Float32)
    (hn : s.stack.length ≠ 1 ∧ s.stack.length ≠ 4 ∧ s.stack.length ≠ 5) (ha : s.accented = none)
    (w : Float32) :
    (s.finish nominal).2 = none ∧ (s.finish nominal).1.drawing w = s.drawing w := by
  have hs : (decide (s.stack.length = 1) || decide (s.stack.length = 5)) = false := by
    simp [hn.left, hn.right.right]
  have ho : s.operands (fun n => n = 1 || n = 5) = s.stack.reverse := by
    simp only [operands, hs, Bool.false_eq_true, if_false]
  have hnone : accentedOf? s.stack.reverse = .ok none := by
    simp only [accentedOf?]
    split
    case h_1 he => exact absurd (by simpa using congrArg List.length he) hn.right.left
    case h_2    => rfl
  have hw : (s.clear nominal fun n => n = 1 || n = 5).advance = s.advance.decide nominal none := by
    simp only [clear, hs, Bool.false_eq_true, if_false]
  simp only [finish, ho, hnone, drawing, hw, ha, Advance.width_decide_none,
    PathBuilder.finish_close, and_self]

end State

namespace Machine

variable {ctx : Context} {m m' m₁ : Machine} {op : Operator} {n : Nat}

-- No composition is asked for before the end.
theorem accented_execute (h : execute ctx op m = .next m') :
    m'.state.accented = m.state.accented := by
  cases hd : op.decidesWidth with
  | false => simpa [h] using (@execute_frame ctx m op hd).accented
  | true  =>
    obtain ⟨_, hs⟩ | ⟨_, _, hm⟩ := execute_decides hd h
    case inl => exact hs ▸ rfl
    case inr => exact (State.move_frame hm).right

theorem accented_step (h : step ctx m = .next m') : m'.state.accented = m.state.accented := by
  obtain ⟨_, _, _, ha⟩ | ⟨x, _, hm, hs⟩ := execution?_of_next h
  case inl => rw [ha]
  case inr => exact hm ▸ accented_execute hs

theorem Steps.accented (s : Steps ctx n m m₁) : m₁.state.accented = m.state.accented := by
  induction s with
  | refl         => rfl
  | step hs _ ih => exact ih.trans (accented_step hs)

theorem endchar_of_stop (h : execute ctx op m = .stop m' none) : op = .endchar := by
  cases op with
  | endchar              => rfl
  | stem                 => cases h
  | mask                 =>
    simp only [execute, mask] at h
    split at h <;> cases h
  | move _ | path _ | arithmetic _ =>
    simp only [execute, proceed, fail] at h
    split at h <;> cases h
  | callsubr | callgsubr => cases (call_stop h).right
  | leave                =>
    simp only [execute, leave, fail] at h
    split at h <;> cases h

-- A run stops without an error by the operator for it, or where no byte is left.
theorem fetch?_of_stop (h : step ctx m = .stop m' none)
    (hx : (m.execution? ctx).map (·.op) ≠ some .endchar) : fetch? m.code m.callers = none := by
  cases hm : m.execution? ctx with
  | none   =>
    cases execution?_eq_none hm with
    | inl ho =>
      obtain ⟨_, _, _, hs, _⟩ := ho
      cases h.symm.trans hs
    | inr ho =>
      obtain ⟨_, _, hs, _, hn⟩ := ho
      cases h.symm.trans hs
      exact hn rfl
  | some x =>
    have hs := (execution?_eq_some hm).left
    have ho := endchar_of_stop (hs.symm.trans h)
    exact absurd (by rw [hm, Option.map_some, ho]) hx

-- An operator for the end does not fail for want of bytes.
theorem ne_eof_of_endchar (hx : (m.execution? ctx).map (·.op) = some .endchar) :
    ¬(step ctx m).IsShort := by
  obtain ⟨x, hm, ho⟩ := Option.map_eq_some_iff.mp hx
  intro ⟨m', hs⟩
  have he := (execution?_eq_some hm).left
  rw [hs, ho, execute, finish] at he
  have hf := (Outcome.stop.inj he).right.symm
  cases State.error_of_finish hf

theorem execution?_of_fetch? (hf : fetch? m.code m.callers = none) : m.execution? ctx = none := by
  simp [execution?, hf]

-- The operator for the end, after bytes that end without one.
theorem step_endchar (h : Machine.Longer [14] m m') (hf : fetch? m.code m.callers = none)
    (hl : m.spent < ctx.limits.maxOperators) :
    step ctx m' = .stop ⟨(m.state.finish ctx.nominalWidth).1, [], [], m.spent + 1⟩
      (m.state.finish ctx.nominalWidth).2 := by
  have hf' : fetch? m'.code m'.callers = some (14, [], []) := h.bytes.fetch?_none hf
  have hr : readOperator ctx 14 ⟨m.state, [], [], m.spent⟩ =
      (⟨m.state, [], [], m.spent + 1⟩, .ok .endchar) := by
    simp [readOperator, hl, Operator.number?, escapeByte, Operator.ofNumber?]
  have hb : isOperand 14 = false := rfl
  simp only [step, hf', h.state, h.spent, hb, Bool.false_eq_true, if_false, takeOperator, hr,
    execute, finish]

end Machine

section

variable {ctx : Context} {code : List UInt8}

theorem longer_append (code after : List UInt8) :
    Machine.Longer after { code } { code := code ++ after } :=
  ⟨rfl, rfl, .charstring⟩

-- A run that ended by an operator or an error did not look for the bytes after its own.
theorem run_append (after : List UInt8)
    (h : Operator.endchar ∈ (Machine.executed ctx { code }).map (·.op) ∨
      ∃ e, (run ctx code).2 = some e ∧ e ≠ .unexpectedEof) :
    run ctx (code ++ after) = run ctx code := by
  have ⟨n, m₁, s, hs⟩ := Machine.steps_run ctx { code }
  obtain ⟨m₁', s', h₁⟩ := (longer_append code after).steps s
  rw [s.execution?_endchar hs] at h
  obtain ha | ⟨m₂, ht⟩ | hf := h₁.step ctx
  case inl     => exact run_eq_of_alike rfl s s' hs ha
  case inr.inl =>
    have he : (run ctx code).2 = some .unexpectedEof :=
      (Outcome.stop.inj (hs.symm.trans ht)).right
    obtain hx | ⟨e, hr, hne⟩ := h
    case inl => exact absurd ⟨m₂, ht⟩ (Machine.ne_eof_of_endchar hx)
    case inr => exact absurd (Option.some.inj (hr.symm.trans he)) hne
  case inr.inr =>
    have ht : Machine.step ctx m₁ = .stop m₁ none := by simp [Machine.step, hf]
    have he : (run ctx code).2 = none := (Outcome.stop.inj (hs.symm.trans ht)).right
    obtain hx | ⟨e, hr, _⟩ := h
    case inl =>
      rw [Machine.execution?_of_fetch? hf] at hx
      cases hx
    case inr => cases hr.symm.trans he

-- Where the bytes end without an error, the operator for the end only closes the outline.
theorem run_append_endchar (he : (run ctx code).2 = none)
    (hx : Operator.endchar ∉ (Machine.executed ctx { code }).map (·.op))
    (hn : let stack := (Machine.run ctx { code }).1.state.stack
      stack.length ≠ 1 ∧ stack.length ≠ 4 ∧ stack.length ≠ 5)
    (hl : (Machine.run ctx { code }).1.spent < ctx.limits.maxOperators) :
    run ctx (code ++ [14]) = run ctx code := by
  have ⟨n, m₁, s, hs⟩ := Machine.steps_run ctx { code }
  obtain ⟨m₁', s', h₁⟩ := (longer_append code [14]).steps s
  rw [s.execution?_endchar hs] at hx
  have he : (Machine.run ctx { code }).2 = none := he
  rw [he] at hs
  have hf := Machine.fetch?_of_stop hs hx
  have ht : Machine.step ctx m₁ = .stop m₁ none := by simp [Machine.step, hf]
  have hm := (Outcome.stop.inj (hs.symm.trans ht)).left
  have ha : m₁.state.accented = none := s.accented
  rw [hm] at hn hl
  obtain ⟨hnone, hd⟩ := m₁.state.drawing_finish ctx.nominalWidth hn ha ctx.defaultWidth
  have hend := Machine.run_of_steps s' (Machine.step_endchar h₁ hf hl)
  simp only [run, hend, hnone, hd, hm, he]

end

-- Bytes after those with which a run ended have no part in it, and where the bytes end without an
-- error an operator that ends the charstring would change nothing.
theorem run_append_ended (ctx : Context) (code : List UInt8) :
    (Operator.endchar ∈ (Machine.executed ctx { code }).map (·.op) ∨
        (∃ e, (run ctx code).2 = some e ∧ e ≠ .unexpectedEof) →
      ∀ after, run ctx (code ++ after) = run ctx code) ∧
    let m := (Machine.run ctx { code }).1
    ((run ctx code).2 = none → Operator.endchar ∉ (Machine.executed ctx { code }).map (·.op) →
      m.state.stack.length ≠ 1 ∧ m.state.stack.length ≠ 4 ∧ m.state.stack.length ≠ 5 →
      m.spent < ctx.limits.maxOperators →
        run ctx (code ++ [14]) = run ctx code) :=
  ⟨fun h after => run_append after h, run_append_endchar⟩

-- A subroutine that ends the whole charstring, and one that only ends itself.
def endingRoutines : Context where
  localSubrs := { entries := #[(0, [140, 22, 14]), (3, [140, 22, 140, 141])] }

-- The byte 2 is no operator, and 255 begins an operand of five bytes.
theorem run_append_ended_inRoutine :
    run endingRoutines ([32, 10] ++ [2, 255]) = run endingRoutines [32, 10] ∧
    (run endingRoutines [2]).2 = some (.unsupportedCharstringOperator 2) ∧
    run endingRoutines ([2] ++ [255]) = run endingRoutines [2] ∧
    (run endingRoutines [33, 10]).2 = none ∧
    (Machine.run endingRoutines { code := [33, 10] }).1.state.stack = [2, 1] ∧
    run endingRoutines ([33, 10] ++ [14]) = run endingRoutines [33, 10] := by
  have h₂ : (run endingRoutines [2]).2 = some (.unsupportedCharstringOperator 2) := by
    decide +kernel
  have h₃ : (run endingRoutines [33, 10]).2 = none := by decide +kernel
  have hs : (Machine.run endingRoutines { code := [33, 10] }).1.state.stack = [2, 1] := by
    decide +kernel
  exact ⟨(run_append_ended endingRoutines [32, 10]).left (.inl (by decide +kernel)) _, h₂,
    (run_append_ended endingRoutines [2]).left (.inr ⟨_, h₂, nofun⟩) _, h₃, hs,
    (run_append_ended endingRoutines [33, 10]).right h₃ (by decide +kernel) (by rw [hs]; decide)
      (by decide +kernel)⟩

end PdfGraphics.Charstring
