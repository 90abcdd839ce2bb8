import PdfGraphics.Proofs.Charstring.Nesting
/-!
Routines and the machine.

What the machine leaves at the end of its run is what the nested routines leave.
-/

namespace PdfGraphics.Charstring.Machine

-- What the machine leaves at the end of its run.
def leaves (ctx : Context) (m : Machine) : State × Nat × Option DecodeError :=
  ((run ctx m).1.state, (run ctx m).1.spent, (run ctx m).2)

-- What it leaves after a call that ended so, if the caller goes on whenever it can.
def Ending.leaves (ctx : Context) : Ending → State × Nat × Option DecodeError
  | (m, .ok .ended) => (m.state, m.spent, none)
  | (m, .ok _) => m.leaves ctx
  | (m, .error e) => (m.state, m.spent, some e)

def Ending.error? : Ending → Option DecodeError
  | (_, .ok _) => none
  | (_, .error e) => some e

variable {ctx : Context} {enter : Machine → Option Ending} {m m' : Machine} {ending : Ending}
  {subrs : Cff.Index} {flow : Flow} {result : Except DecodeError Flow} {fuel : Nat} {op : Operator}
  {e : Option DecodeError}

theorem leaves_next (h : step ctx m = .next m') : m.leaves ctx = m'.leaves ctx := by
  simp only [leaves, run_eq_of_steps (.step h .refl)]

theorem leaves_stop (h : step ctx m = .stop m' e) : m.leaves ctx = (m'.state, m'.spent, e) := by
  simp only [leaves, run_of_steps .refl h]

theorem leaves_ofStop : Ending.leaves ctx (m, Flow.ofStop e) = (m.state, m.spent, e) := by
  cases e <;> rfl

theorem leaves_back (hf : flow ≠ .ended) : Ending.leaves ctx (m, .ok flow) = m.leaves ctx := by
  cases flow with
  | ended                => exact absurd rfl hf
  | returned | exhausted => rfl

-- At the end of its bytes the machine goes on with those of the caller.
theorem leaves_resume (h : m.code = []) : m.leaves ctx = m.resume.leaves ctx := by
  cases hc : m.callers with
  | nil               => simp [resume, hc]
  | cons code callers =>
    have hs : step ctx m.resume = step ctx m ∨
        step ctx m.resume = .stop m.resume none ∧ step ctx m = .stop m none := by
      simp only [step, resume_of_callers hc, h, hc, fetch?]
      cases fetch? code callers with
      | none   => exact .inr ⟨rfl, rfl⟩
      | some _ => exact .inl rfl
    cases hs with
    | inl he =>
      cases hm : step ctx m with
      | next m'   => rw [leaves_next hm, leaves_next (he.trans hm)]
      | stop m' e => rw [leaves_stop hm, leaves_stop (he.trans hm)]
    | inr hn => rw [leaves_stop hn.left, leaves_stop hn.right, resume_state, resume_spent]

-- A way to run routines that agrees with the machine.
def Agrees (ctx : Context) (enter : Machine → Option Ending) : Prop :=
  ∀ m back result, enter m = some (back, result) →
    m.leaves ctx = Ending.leaves ctx (back.resume, result)

theorem leaves_callBy (ha : Agrees ctx enter) (hs : ctx.subrs? op = some subrs)
    (hr : ReadsOperator ctx m m' (.ok op)) (h : m'.callBy ctx enter subrs = some ending) :
    m.leaves ctx = ending.leaves ctx := by
  have he := hr.step_eq.trans (execute_call hs)
  match callBy_some.mp h with
  | .inl ⟨callee, back, hc, hback, hm⟩ => rw [leaves_next (he.trans hc), ha _ _ _ hback, ← hm]
  | .inr ⟨e, hc, hm⟩ =>
    have hend : ending = (ending.1, Flow.ofStop e) := by rw [← hm]
    rw [hend, leaves_stop (he.trans hc), leaves_ofStop]

theorem Turn.leaves_eq (ha : Agrees ctx enter) (t : Turn ctx enter m m') :
    m.leaves ctx = m'.leaves ctx := by
  cases t with
  | operand h        => exact leaves_next h.step_eq
  | plain hr hs hl h => exact leaves_next (hr.step_eq.trans h)
  | call hr hs h hf  => exact (leaves_callBy ha hs hr h).trans (leaves_back hf)

theorem leaves_leave (hr : ReadsOperator ctx m m' (.ok .leave)) :
    m.leaves ctx = Ending.leaves ctx
      (m'.resume, if m'.callers.isEmpty then .error .unexpectedReturn else .ok .returned) := by
  cases hc : m'.callers with
  | nil               =>
    have hs : m'.leave = .stop m' (some .unexpectedReturn) := by simp [leave, hc, fail]
    simpa [Ending.leaves] using leaves_stop (hr.step_eq.trans hs)
  | cons code callers =>
    have hs : m'.leave = .next m'.resume := by simp [leave, resume, hc]
    exact leaves_next (hr.step_eq.trans hs)

theorem Last.leaves_eq (ha : Agrees ctx enter) (l : Last ctx enter m (m', result)) :
    m.leaves ctx = Ending.leaves ctx (m'.resume, result) := by
  have hstop (m : Machine) e : Ending.leaves ctx (m.resume, Flow.ofStop e) = (m.state, m.spent, e) := by
    rw [leaves_ofStop, resume_state, resume_spent]
  cases l with
  | exhausted hm     => exact leaves_resume hm
  | operand h        => rw [leaves_stop h.step_eq, hstop]
  | unread hr        => exact (leaves_stop hr.step_fail).trans (hstop _ (some _)).symm
  | leave hr         => exact leaves_leave hr
  | plain hr hs hl h => rw [leaves_stop (hr.step_eq.trans h), hstop]
  | call hr hs h hf  =>
    rw [leaves_callBy ha hs hr h]
    match result with
    | .error e => simp [Ending.leaves]
    | .ok flow =>
      cases hf flow rfl
      simp [Ending.leaves]

theorem agrees_routineFor (fuel : Nat) : Agrees ctx (routineFor ctx fuel) := by
  induction fuel with
  | zero         =>
    intro m back result h
    cases h
  | succ fuel ih =>
    intro m back result h
    match routineFor_succ.mp h with
    | .inl ⟨m', t, h⟩ => exact (t.leaves_eq ih).trans (ih _ _ _ h)
    | .inr l => exact l.leaves_eq ih

theorem agrees_calls : Agrees ctx (calls ctx) :=
  fun m _ _ h => agrees_routineFor _ m _ _ (routineFor_of_calls h)

-- The routine of a charstring has no caller to come back to, and ends as the machine does.
theorem leaves_charstring (ctx : Context) (code : List UInt8) :
    leaves ctx { code } = ((routine ctx { code }).1.state, (routine ctx { code }).1.spent,
      (routine ctx { code }).error?) := by
  have hc : (routine ctx { code }).1.callers = [] := orderly_calls.callers (calls_eq ctx _)
  have ha : leaves ctx { code } =
      Ending.leaves ctx ((routine ctx { code }).1.resume, (routine ctx { code }).2) :=
    agrees_calls _ _ _ (calls_eq ctx _)
  obtain ⟨m, _, l⟩ := turns_routine ctx { code }
  rw [ha]
  generalize routine ctx { code } = ending at hc l ⊢
  obtain ⟨m', result⟩ := ending
  change m'.callers = [] at hc
  cases result with
  | error e => simp [Ending.leaves, Ending.error?]
  | ok flow =>
    cases flow with
    | ended     => simp [Ending.leaves, Ending.error?]
    | exhausted =>
      cases l.back (by decide) with
      | inl he =>
        have hm : m'.code = [] := he.right.right ▸ he.right.left
        have hs : step ctx m'.resume = .stop m' none := by simp [resume, hc, step, hm, fetch?]
        exact leaves_stop hs
      | inr hr => cases hr.left
    | returned  =>
      cases l.back (by decide) with
      | inl he => cases he.left
      | inr hr => exact absurd hc hr.right.left

end PdfGraphics.Charstring.Machine
