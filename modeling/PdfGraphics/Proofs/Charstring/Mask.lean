import Mathlib.Algebra.Order.Floor.Div
import Mathlib.GroupTheory.GroupAction.Ring
import PdfGraphics.Proofs.Charstring.Place
/-!
The data of hint masks.

How long it is depends on all the stems that were declared before, in whatever routine. What it says
has no effect.
-/

namespace PdfGraphics.Charstring

-- How many stems the operator declares: a mask takes operands before it for vertical stems.
def Execution.stems (x : Execution) : Nat :=
  match x.op with
  | .stem | .mask => x.stack.length / 2
  | _ => 0

-- How many stems the operators that were executed have declared.
def declaredStems (executed : List Execution) : Nat :=
  (executed.map (·.stems)).sum

theorem declaredStems_append (executed executed' : List Execution) :
    declaredStems (executed ++ executed') = declaredStems executed + declaredStems executed' := by
  simp [declaredStems]

-- A byte has a bit for each of eight stems.
theorem State.maskSize_eq (s : State) : s.maskSize = s.stems ⌈/⌉ 8 := by
  simp [maskSize, Nat.ceilDiv_eq_add_pred_div]

namespace Machine

variable {ctx : Context} {m m' : Machine} {n : Nat} {x : Execution}

theorem stems_execute (h : execute ctx x.op x.machine = .next m') :
    m'.state.stems = x.machine.state.stems + x.stems := by
  obtain ⟨op, m⟩ := x
  cases hd : op.decidesWidth with
  | false =>
    have hs : Execution.stems ⟨op, m⟩ = 0 := by cases op <;> first | rfl | cases hd
    simpa [h, hs] using (@execute_frame ctx m op hd).stems
  | true  =>
    obtain ⟨rfl | rfl, hs⟩ | ⟨_, rfl, hm⟩ := execute_decides hd h
    case inl.inl | inl.inr => exact hs ▸ rfl
    case inr               => exact (State.move_frame hm).left

theorem stems_step (h : step ctx m = .next m') :
    m'.state.stems = m.state.stems + declaredStems (m.execution? ctx).toList := by
  obtain ⟨hx, _, _, ha⟩ | ⟨x, hx, hm, hs⟩ := execution?_of_next h
  case inl =>
    rw [hx, ha]
    rfl
  case inr =>
    rw [hx, ← hm, stems_execute hs]
    simp [declaredStems]

theorem Steps.stems (s : Steps ctx n m m') :
    m'.state.stems = m.state.stems + declaredStems (executedFor ctx n m) := by
  induction s with
  | refl         => rfl
  | step h _ ih  =>
    rw [ih, stems_step h]
    simp only [executedFor, h, declaredStems_append, Nat.add_assoc]

theorem Steps.executedFor_succ (s : Steps ctx n m m') (hx : m'.execution? ctx = some x) :
    executedFor ctx (n + 1) m = executedFor ctx n m ++ [x] := by
  rw [s.executedFor_add, executedFor, hx]
  cases Machine.step ctx m' <;> rfl

-- The data is as long as the stems declared up to and with the mask itself make it.
theorem mask_eq (ho : x.op = .mask) :
    execute ctx x.op x.machine =
      let state := x.machine.state.declareStems ctx.nominalWidth
      let size := (x.machine.state.stems + x.stems) ⌈/⌉ 8
      if size ≤ x.machine.code.length then
        .next { x.machine with state, code := x.machine.code.drop size }
      else
        .stop { x.machine with state } (some .unexpectedEof) := by
  have hs : (x.machine.state.declareStems ctx.nominalWidth).maskSize =
      (x.machine.state.stems + x.stems) ⌈/⌉ 8 := by
    rw [State.maskSize_eq, Execution.stems, ho]
    rfl
  simp only [ho, execute, mask, Bytes.skip?_eq, hs]
  by_cases hl : (x.machine.state.stems + x.stems) ⌈/⌉ 8 ≤ x.machine.code.length
  case pos => simp only [hl, if_true]
  case neg => simp only [hl, if_false]

end Machine

-- A mask skips one bit for every stem that the run has declared, in whole bytes, and fails only if
-- there are not as many bytes. What it skips is not among the bytes that the run reads, so that any
-- other bytes can stand there.
theorem run_skips_masks (ctx : Context) (code : List UInt8) :
    (∀ n m x, Machine.Steps ctx n { code } m → m.execution? ctx = some x → x.op = .mask →
      let size := declaredStems (Machine.executedFor ctx (n + 1) { code }) ⌈/⌉ 8
      (size ≤ x.machine.code.length →
        ∃ m', Machine.step ctx m = .next m' ∧ m'.code = x.machine.code.drop size ∧
          m'.callers = x.machine.callers) ∧
      ((∃ m', Machine.step ctx m = .stop m' (some .unexpectedEof)) ↔
        x.machine.code.length < size)) ∧
    ∀ ctx' code', Context.SameShape ctx ctx' code code' →
      Agree (ctx.bytes code) (ctx'.bytes code') (reads ctx code) →
        run ctx' code' = run ctx code := by
  refine ⟨fun n m x s hx ho => ?_, fun ctx' code' hs ha => run_eq_of_agree hs ha⟩
  have ⟨hstep, hm⟩ := Machine.execution?_eq_some hx
  have hstems : x.machine.state.stems + x.stems =
      declaredStems (Machine.executedFor ctx (n + 1) { code }) := by
    rw [s.executedFor_succ hx, declaredStems_append, hm, s.stems]
    simp [declaredStems]
  rw [hstep, Machine.mask_eq ho, hstems]
  generalize declaredStems (Machine.executedFor ctx (n + 1) { code }) ⌈/⌉ 8 = size
  by_cases hl : size ≤ x.machine.code.length
  case pos =>
    simp only [hl, if_true]
    exact ⟨fun _ => ⟨_, rfl, rfl, rfl⟩, nofun, fun h => absurd hl (Nat.not_le.mpr h)⟩
  case neg =>
    simp only [hl, if_false]
    exact ⟨nofun, fun _ => Nat.lt_of_not_le hl, fun _ => ⟨_, rfl⟩⟩

-- A subroutine with a mask of its own.
def maskInRoutine (data : UInt8) : Context where
  localSubrs := { entries := #[(0, [140, 141, 19, data, 11])] }

theorem maskInRoutine_sameShape (data data' b b' : UInt8) :
    Context.SameShape (maskInRoutine data) (maskInRoutine data')
      [139, 140, 1, 32, 10, 20, b, 140, 22] [139, 140, 1, 32, 10, 20, b', 140, 22] where
  localCount := rfl
  globalCount := rfl
  length
    | .charstring => rfl
    | .localSubr 0 => rfl
    | .localSubr (_ + 1) => rfl
    | .globalSubr _ => rfl
  defaultWidth := rfl
  nominalWidth := rfl
  limits := rfl

-- Both masks have a byte, for two stems. Read as tokens, the bytes would end the charstring, or
-- begin an operand that takes the bytes after it.
theorem run_skips_masks_inRoutine :
    (∃ m m',
      Machine.Steps (maskInRoutine 14) 7 { code := [139, 140, 1, 32, 10, 20, 14, 140, 22] } m ∧
      Machine.step (maskInRoutine 14) m = .next m' ∧ m'.code = [11] ∧
      m'.callers = [[20, 14, 140, 22]]) ∧
    (∃ m m', Machine.Steps (maskInRoutine 14) 2 { code := [139, 140, 19] } m ∧
      Machine.step (maskInRoutine 14) m = .stop m' (some .unexpectedEof)) ∧
    run (maskInRoutine 255) [139, 140, 1, 32, 10, 20, 28, 140, 22] =
      run (maskInRoutine 14) [139, 140, 1, 32, 10, 20, 14, 140, 22] := by
  have ⟨hmasks, hrun⟩ := run_skips_masks (maskInRoutine 14) [139, 140, 1, 32, 10, 20, 14, 140, 22]
  have s₇ : Machine.Steps (maskInRoutine 14) 7
      { code := [139, 140, 1, 32, 10, 20, 14, 140, 22] } _ :=
    .step rfl (.step rfl (.step rfl (.step rfl (.step rfl (.step rfl (.step rfl .refl))))))
  have s₂ : Machine.Steps (maskInRoutine 14) 2 { code := [139, 140, 19] } _ :=
    .step rfl (.step rfl .refl)
  obtain ⟨m', hm, hc, hcallers⟩ := (hmasks 7 _ _ s₇ rfl rfl).left (by decide +kernel)
  obtain ⟨m'', hm'⟩ := ((run_skips_masks (maskInRoutine 14) [139, 140, 19]).left 2 _ _ s₂ rfl
    rfl).right.mpr (by decide +kernel)
  exact ⟨⟨_, m', s₇, hm, hc.trans (by decide +kernel), hcallers.trans (by decide +kernel)⟩,
    ⟨_, m'', s₂, hm'⟩,
    hrun _ _ (maskInRoutine_sameShape 14 255 14 28) (by decide +kernel)⟩

end PdfGraphics.Charstring
