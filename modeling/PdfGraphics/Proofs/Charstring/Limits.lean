import PdfGraphics.Proofs.Charstring.Path
/-!
What the limits do.

Limits stop a run, and do nothing else. Under higher limits a run that none of them stopped is the
same, and one that was stopped goes on from there.
-/

namespace PdfGraphics

-- The two errors of a run that depend on its limits.
def DecodeError.isLimit : DecodeError → Bool
  | operationLimitExceeded | recursionLimitExceeded _ => true
  | _ => false

namespace Charstring

open PathBuilder

instance : LE Limits where
  le l l' := l.maxCallDepth ≤ l'.maxCallDepth ∧ l.maxOperators ≤ l'.maxOperators

-- A limit stops the run, before the token has changed the state.
def Outcome.IsCut (state : State) (o : Outcome) : Prop :=
  ∃ m e, o = .stop m (some e) ∧ e.isLimit ∧ m.state = state

def Context.withLimits (ctx : Context) (limits : Limits) : Context :=
  { ctx with limits }

namespace Machine

variable {ctx : Context} {limits : Limits} {m m₁ m₂ : Machine} {n : Nat}

theorem call_withLimits {subrs : Cff.Index} (h : ctx.limits ≤ limits) :
    m.call (ctx.withLimits limits) subrs = m.call ctx subrs ∨ (m.call ctx subrs).IsCut m.state := by
  simp only [call]
  split
  case h_1 => exact .inl rfl
  case h_2 =>
    split
    case h_1 => exact .inl rfl
    case h_2 =>
      by_cases hd : m.callers.length < ctx.limits.maxCallDepth
      case pos =>
        have hd' : m.callers.length < limits.maxCallDepth := Nat.lt_of_lt_of_le hd h.left
        exact .inl (by simp [hd, hd', Context.withLimits])
      case neg =>
        rw [if_neg hd]
        exact .inr ⟨_, _, rfl, rfl, rfl⟩

theorem execute_withLimits {op : Operator} (h : ctx.limits ≤ limits) :
    execute (ctx.withLimits limits) op m = execute ctx op m ∨
      (execute ctx op m).IsCut m.state := by
  cases op with
  | callsubr | callgsubr => exact call_withLimits h
  | _                    => exact .inl rfl

theorem readOperator_withLimits (h : ctx.limits ≤ limits) (m : Machine) (b : UInt8) :
    m.readOperator (ctx.withLimits limits) b = m.readOperator ctx b ∨
      m.readOperator ctx b = (m, .error .operationLimitExceeded) := by
  by_cases hs : m.spent < ctx.limits.maxOperators
  case pos =>
    have hs' : m.spent < limits.maxOperators := Nat.lt_of_lt_of_le hs h.right
    exact .inl (by simp [readOperator, hs, hs', Context.withLimits])
  case neg => exact .inr (by simp [readOperator, hs])

theorem takeOperator_withLimits {b : UInt8} (h : ctx.limits ≤ limits) :
    m.takeOperator (ctx.withLimits limits) b = m.takeOperator ctx b ∨
      (m.takeOperator ctx b).IsCut m.state := by
  simp only [takeOperator]
  cases readOperator_withLimits h m b with
  | inl hr =>
    rw [hr]
    split
    case h_1     => exact .inl rfl
    case h_2 hr' => exact readOperator_state hr' ▸ execute_withLimits h
  | inr hr =>
    rw [hr]
    exact .inr ⟨_, _, rfl, rfl, rfl⟩

theorem step_withLimits (h : ctx.limits ≤ limits) (m : Machine) :
    step (ctx.withLimits limits) m = step ctx m ∨ (step ctx m).IsCut m.state := by
  simp only [step]
  split
  case h_1 => exact .inl rfl
  case h_2 =>
    split
    case isTrue  => exact .inl rfl
    case isFalse => exact takeOperator_withLimits h

theorem Steps.withLimits (s : Steps ctx n m₁ m₂) (h : ctx.limits ≤ limits) :
    Steps (ctx.withLimits limits) n m₁ m₂ := by
  induction s with
  | refl                  => exact .refl
  | @step _ m _ _ hs _ ih =>
    match step_withLimits h m with
    | .inl he            => exact .step (he.trans hs) ih
    | .inr ⟨_, _, hc, _⟩ => cases hs.symm.trans hc

theorem run_withLimits (h : ctx.limits ≤ limits) (m : Machine) :
    run (ctx.withLimits limits) m = run ctx m ∨
      (run ctx m).2.any DecodeError.isLimit ∧
        Continues (run ctx m).1.state.path (run (ctx.withLimits limits) m).1.state.path := by
  have ⟨n, m₁, s, hs⟩ := steps_run ctx m
  match step_withLimits h m₁ with
  | .inl he                   => exact .inl (run_of_steps (s.withLimits h) (he.trans hs))
  | .inr ⟨m₂, e, hc, hl, hm⟩ =>
    have hr : run ctx m = (m₂, some e) := run_of_steps s hc
    rw [hr, run_eq_of_steps (s.withLimits h)]
    exact .inr ⟨hl, hm ▸ continues_run⟩

end Machine

-- A run that no limit stops is the same under higher limits. A limit only ends a run: but for the
-- closing operation that the end itself adds, the outline is the beginning of the one that higher
-- limits give.
theorem run_raise_limits (ctx : Context) (limits : Limits) (code : List UInt8)
    (h : ctx.limits ≤ limits) :
    ((run ctx code).2.any DecodeError.isLimit = false →
      run (ctx.withLimits limits) code = run ctx code) ∧
    ((run ctx code).2.any DecodeError.isLimit = true →
      let path := (Machine.run ctx { code }).1.state.path
      (run ctx code).1.outline.ops =
          path.drawn.reverse ++ (if path.isOpen then [.close] else []) ∧
        path.drawn.reverse <+: (run (ctx.withLimits limits) code).1.outline.ops) := by
  refine ⟨fun hl => ?_, fun _ => ⟨finish_ops _, ?_⟩⟩
  case _ =>
    match Machine.run_withLimits h { code } with
    | .inl he      =>
      simp only [run, he]
      rfl
    | .inr ⟨hc, _⟩ => exact absurd hc (by simpa [run] using hl)
  case _ =>
    match Machine.run_withLimits h { code } with
    | .inl he     =>
      simp only [run, he]
      exact Continues.refl.drawn_prefix_finish
    | .inr ⟨_, c⟩ => exact c.drawn_prefix_finish

-- The only local subroutine draws a line and then calls itself.
def nestedLines (limits : Limits) : Context where
  localSubrs := { entries := #[(0, [140, 140, 5, 32, 10])] }
  limits := limits

-- The deeper its calls may nest, the more lines there are.
theorem run_raise_limits_nestedLines :
    (nestedLines ⟨1, 9⟩).limits ≤ ⟨2, 9⟩ ∧
    (run (nestedLines ⟨1, 9⟩) [32, 10]).2 = some (.recursionLimitExceeded 2) ∧
    (run (nestedLines ⟨1, 9⟩) [32, 10]).1.outline.ops =
      [.moveTo ⟨0, 0⟩, .lineTo ⟨1, 1⟩] ++ [.close] ∧
    [.moveTo ⟨0, 0⟩, .lineTo ⟨1, 1⟩] <+:
      (run ((nestedLines ⟨1, 9⟩).withLimits ⟨2, 9⟩) [32, 10]).1.outline.ops ∧
    run ((nestedLines ⟨1, 9⟩).withLimits ⟨2, 9⟩) [140, 140, 5] =
      run (nestedLines ⟨1, 9⟩) [140, 140, 5] := by
  have hl : (nestedLines ⟨1, 9⟩).limits ≤ ⟨2, 9⟩ := ⟨by decide, by decide⟩
  have hd : (Machine.run (nestedLines ⟨1, 9⟩) { code := [32, 10] }).1.state.path.drawn.reverse =
    [.moveTo ⟨0, 0⟩, .lineTo ⟨1, 1⟩] := by decide +kernel
  have ⟨_, hc⟩ := (run_raise_limits _ _ [32, 10] hl).right (by decide +kernel)
  exact ⟨hl, by decide +kernel, by decide +kernel, hd ▸ hc,
    (run_raise_limits _ _ [140, 140, 5] hl).left (by decide +kernel)⟩

end Charstring

end PdfGraphics
