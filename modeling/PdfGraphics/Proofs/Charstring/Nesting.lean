import PdfGraphics.Proofs.Charstring.Routine
/-!
Nested routines.

Every routine ends, and its callers are as they were. So a call goes back to where it was made,
whatever came of it.
-/

namespace PdfGraphics.Charstring.Machine

variable {ctx : Context} {enter enter' : Machine → Option Ending} {m m₁ m' callee : Machine}
  {ending : Ending} {subrs : Cff.Index} {flow : Flow} {result : Except DecodeError Flow}
  {fuel fuel' : Nat} {op : Operator} {o : Outcome}

-- What every run of a routine keeps: its callers and, if it comes back, the bound on the tokens.
structure Orderly (ctx : Context) (enter : Machine → Option Ending) : Prop where
  callers {m : Machine} {ending : Ending} (h : enter m = some ending) : ending.1.callers = m.callers
  potential {m m' : Machine} {flow : Flow} (h : enter m = some (m', .ok flow)) (hf : flow ≠ .ended) :
    m'.potential ctx ≤ m.potential ctx

theorem potential_resume : m.resume.potential ctx = m.potential ctx := by
  simp [potential]

-- A call leaves the caller's bytes and its depth as they were, whatever comes of it.
theorem callBy_restores (o : Orderly ctx enter) (h : m.callBy ctx enter subrs = some (m', result)) :
    m'.code = m.code ∧ m'.callers = m.callers := by
  match callBy_some.mp h with
  | .inl ⟨callee, back, hc, hr, he⟩ =>
    have ⟨_, _, _, _, _, _, hcallee⟩ := call_next.mp hc
    have hb : back.callers = m.code :: m.callers := by rw [o.callers hr, hcallee]
    rw [he, resume_of_callers hb]
    exact ⟨rfl, rfl⟩
  | .inr ⟨e, hc, _⟩ =>
    rw [(call_stop hc).left]
    exact ⟨rfl, rfl⟩

theorem TakesOperand.step_eq (h : TakesOperand m o) : step ctx m = o := by
  have ⟨b, code, hm, hb, h⟩ := h
  simp [step, fetch?, hm, hb, h]

theorem TakesOperand.callers (h : TakesOperand m o) : o.machine.callers = m.callers := by
  have ⟨b, code, _, _, h⟩ := h
  exact h ▸ takeOperand_frame.left

theorem TakesOperand.potential_lt (h : TakesOperand m (.next m')) :
    m'.potential ctx < m.potential ctx :=
  potential_step h.step_eq

theorem ReadsOperator.step_eq (hr : ReadsOperator ctx m m' (.ok op)) :
    step ctx m = execute ctx op m' := by
  have ⟨b, code, hm, hb, hr⟩ := hr
  simp [step, fetch?, hm, hb, takeOperator, hr]

theorem ReadsOperator.step_fail {e : DecodeError} (hr : ReadsOperator ctx m m' (.error e)) :
    step ctx m = .stop m' (some e) := by
  have ⟨b, code, hm, hb, hr⟩ := hr
  simp [step, fetch?, hm, hb, takeOperator, hr, fail]

theorem ReadsOperator.callers {read : Except DecodeError Operator}
    (hr : ReadsOperator ctx m m' read) : m'.callers = m.callers := by
  have ⟨b, code, _, _, hr⟩ := hr
  have := readOperator_callers hr
  exact this

namespace Turn

theorem callers (t : Turn ctx enter m m') (o : Orderly ctx enter) : m'.callers = m.callers := by
  cases t with
  | operand h        => exact h.callers
  | plain hr hs hl h => exact (execute_callers hs hl h).trans hr.callers
  | call hr hs h hf  => exact (callBy_restores o h).right.trans hr.callers

theorem potential_lt (t : Turn ctx enter m m') (o : Orderly ctx enter) :
    m'.potential ctx < m.potential ctx := by
  cases t with
  | operand h        => exact h.potential_lt
  | plain hr hs hl h => exact potential_step (hr.step_eq.trans h)
  | call hr hs h hf  =>
    have ⟨callee, back, hc, hback, he⟩ := callBy_back hf h
    have hcallee := potential_step (hr.step_eq.trans ((execute_call hs).trans hc))
    rw [he, potential_resume]
    exact Nat.lt_of_le_of_lt (o.potential hback hf) hcallee

end Turn

namespace Last

theorem callers (l : Last ctx enter m ending) (o : Orderly ctx enter) :
    ending.1.callers = m.callers := by
  cases l with
  | exhausted        => rfl
  | operand h        => exact h.callers
  | unread hr        => exact hr.callers
  | leave hr         => exact hr.callers
  | plain hr hs hl h => exact (execute_callers hs hl h).trans hr.callers
  | call hr hs h hf  => exact (callBy_restores o h).right.trans hr.callers

-- A routine comes back from the end of its bytes, or with the operator for it.
theorem back (l : Last ctx enter m (m', .ok flow)) (hf : flow ≠ .ended) :
    (flow = .exhausted ∧ m.code = [] ∧ m' = m) ∨
      flow = .returned ∧ m'.callers ≠ [] ∧ ReadsOperator ctx m m' (.ok .leave) := by
  generalize he : (m', Except.ok flow) = ending at l
  cases l with
  | exhausted hm     =>
    cases he
    exact .inl ⟨rfl, hm, rfl⟩
  | @operand _ e h   =>
    cases e <;> cases he
    exact absurd rfl hf
  | unread hr        => cases he
  | leave hr         =>
    split at he
    case isTrue     => cases he
    case isFalse hc =>
      cases he
      exact .inr ⟨rfl, by simpa using hc, hr⟩
  | @plain _ _ _ e hr hs hl h =>
    cases e <;> cases he
    exact absurd rfl hf
  | call hr hs h hf' =>
    cases he
    exact absurd (hf' flow rfl) hf

theorem potential_le (l : Last ctx enter m (m', .ok flow)) (hf : flow ≠ .ended) :
    m'.potential ctx ≤ m.potential ctx := by
  match l.back hf with
  | .inl ⟨_, _, he⟩ => exact he ▸ Nat.le_refl _
  | .inr ⟨_, hc, hr⟩ =>
    have ⟨code, callers, hc⟩ := List.exists_cons_of_ne_nil hc
    have hl : m'.leave = Outcome.next { m' with code, callers } := by
      simp [Machine.leave, hc]
    have := potential_step (hr.step_eq.trans hl)
    exact Nat.le_of_lt this

end Last

theorem orderly_routineFor (fuel : Nat) : Orderly ctx (routineFor ctx fuel) := by
  induction fuel with
  | zero         => exact ⟨nofun, nofun⟩
  | succ fuel ih =>
    constructor
    case callers =>
      intro m ending h
      match routineFor_succ.mp h with
      | .inl ⟨m₁, t, h⟩ => exact (ih.callers h).trans (t.callers ih)
      | .inr l => exact l.callers ih
    case potential =>
      intro m m' flow h hf
      match routineFor_succ.mp h with
      | .inl ⟨m₁, t, h⟩ => exact Nat.le_trans (ih.potential h hf) (Nat.le_of_lt (t.potential_lt ih))
      | .inr l => exact l.potential_le hf

-- A pass is only left open by a call whose routine is.
theorem isSome_passBy
    (h : ∀ callee, callee.potential ctx < m.potential ctx → (enter callee).isSome) :
    (m.passBy ctx enter).isSome := by
  simp only [passBy]
  split
  case h_1 => rfl
  case h_2 b code hm =>
    split
    case isTrue => rfl
    case isFalse hb =>
      split
      case h_1 => rfl
      case h_2 m₁ op hr =>
        have hr : ReadsOperator ctx m m₁ (.ok op) := ⟨b, code, hm, hb, hr⟩
        simp only [performBy]
        split
        case h_1 subrs hs =>
          simp only [callBy, Option.isSome_map]
          split
          case h_1 callee hc =>
            have := potential_step (hr.step_eq.trans ((execute_call hs).trans hc))
            simpa using h callee this
          case h_2 => rfl
        case h_2 => split <;> rfl

theorem isSome_routineFor (h : m.potential ctx < fuel) : (routineFor ctx fuel m).isSome := by
  induction fuel generalizing m with
  | zero         => omega
  | succ fuel ih =>
    -- A callee begins with less potential than its caller has, and each turn leaves less.
    have hp : (m.passBy ctx (routineFor ctx fuel)).isSome :=
      isSome_passBy fun callee hc => ih (by omega)
    obtain ⟨pass, hp⟩ := Option.isSome_iff_exists.mp hp
    simp only [routineFor, hp]
    cases passBy_cases hp with
    | inl ht =>
      obtain ⟨m', he, t⟩ := ht
      subst he
      have := t.potential_lt (orderly_routineFor fuel)
      exact ih (by omega)
    | inr hl =>
      obtain ⟨ending, he, _⟩ := hl
      subst he
      rfl

-- Takes a routine to its end.
def routine (ctx : Context) (m : Machine) : Ending :=
  (routineFor ctx (m.potential ctx + 1) m).get (isSome_routineFor (Nat.lt_succ_self _))

section

variable (hr : ∀ m ending, enter m = some ending → enter' m = some ending)
include hr

theorem callBy_mono (h : m.callBy ctx enter subrs = some ending) :
    m.callBy ctx enter' subrs = some ending := by
  match callBy_some.mp h with
  | .inl ⟨callee, back, hc, hb, he⟩ =>
    exact callBy_some.mpr (.inl ⟨callee, back, hc, hr _ _ hb, he⟩)
  | .inr he => exact callBy_some.mpr (.inr he)

theorem Turn.mono (t : Turn ctx enter m m') : Turn ctx enter' m m' := by
  cases t with
  | operand h         => exact .operand h
  | plain h hs hl he  => exact .plain h hs hl he
  | call h hs hc hf   => exact .call h hs (callBy_mono hr hc) hf

theorem Last.mono (l : Last ctx enter m ending) : Last ctx enter' m ending := by
  cases l with
  | exhausted hm     => exact .exhausted hm
  | operand h        => exact .operand h
  | unread h         => exact .unread h
  | leave h          => exact .leave h
  | plain h hs hl he => exact .plain h hs hl he
  | call h hs hc hf  => exact .call h hs (callBy_mono hr hc) hf

end

theorem routineFor_mono (hf : fuel ≤ fuel') (h : routineFor ctx fuel m = some ending) :
    routineFor ctx fuel' m = some ending := by
  induction fuel generalizing fuel' m ending with
  | zero         => cases h
  | succ fuel ih =>
    have ⟨k, hk⟩ := Nat.exists_eq_add_of_le hf
    have hr m ending (h : routineFor ctx fuel m = some ending) :
        routineFor ctx (fuel + k) m = some ending := ih (Nat.le_add_right _ _) h
    rw [hk, show fuel + 1 + k = fuel + k + 1 by omega]
    match routineFor_succ.mp h with
    | .inl ⟨m', t, h⟩ => exact routineFor_succ.mpr (.inl ⟨m', t.mono hr, hr _ _ h⟩)
    | .inr l => exact routineFor_succ.mpr (.inr (l.mono hr))

theorem routineFor_routine (ctx : Context) (m : Machine) :
    routineFor ctx (m.potential ctx + 1) m = some (routine ctx m) := by
  simp [routine]

-- Which fuel a routine is given does not matter, if it is enough.
theorem routine_of_routineFor (h : routineFor ctx fuel m = some ending) :
    routine ctx m = ending := by
  have h₁ := routineFor_mono (Nat.le_max_left fuel (m.potential ctx + 1)) h
  have h₂ := routineFor_mono (Nat.le_max_right fuel (m.potential ctx + 1)) (routineFor_routine ctx m)
  exact Option.some.inj (h₂.symm.trans h₁)

-- How calls are made.
def calls (ctx : Context) (m : Machine) : Option Ending :=
  some (routine ctx m)

theorem calls_eq (ctx : Context) (m : Machine) :
    calls ctx m = some ((routine ctx m).1, (routine ctx m).2) := by
  rw [calls]

theorem routineFor_of_calls (h : calls ctx m = some ending) :
    routineFor ctx (m.potential ctx + 1) m = some ending := by
  rw [routineFor_routine]
  exact h

theorem calls_of_routineFor (h : routineFor ctx fuel m = some ending) : calls ctx m = some ending :=
  congrArg some (routine_of_routineFor h)

-- The routine of the machine `m` goes on until it is at `m'`.
inductive Turns (ctx : Context) : Machine → Machine → Prop
  | refl {m : Machine} : Turns ctx m m
  | step {m₁ m₂ m₃ : Machine} :
    (Turn ctx (calls ctx) m₁ m₂) → (Turns ctx m₂ m₃) → Turns ctx m₁ m₃

theorem turns_of_routineFor (h : routineFor ctx fuel m = some ending) :
    ∃ m', Turns ctx m m' ∧ Last ctx (calls ctx) m' ending := by
  induction fuel generalizing m with
  | zero         => cases h
  | succ fuel ih =>
    match routineFor_succ.mp h with
    | .inl ⟨m₁, t, h⟩ =>
      have ⟨m', ts, l⟩ := ih h
      exact ⟨m', .step (t.mono fun _ _ => calls_of_routineFor) ts, l⟩
    | .inr l => exact ⟨m, .refl, l.mono fun _ _ => calls_of_routineFor⟩

theorem turns_routine (ctx : Context) (m : Machine) :
    ∃ m', Turns ctx m m' ∧ Last ctx (calls ctx) m' (routine ctx m) :=
  turns_of_routineFor (routineFor_routine ctx m)

theorem orderly_calls : Orderly ctx (calls ctx) where
  callers h      := (orderly_routineFor _).callers (routineFor_of_calls h)
  potential h hf := (orderly_routineFor _).potential (routineFor_of_calls h) hf

-- Calls a subroutine and goes back, whatever came of it.
def callRoutine (ctx : Context) (subrs : Cff.Index) (m : Machine) : Ending :=
  match m.call ctx subrs with
  | .next callee => ((routine ctx callee).1.resume, (routine ctx callee).2)
  | .stop m e => (m, Flow.ofStop e)

theorem callBy_calls : m.callBy ctx (calls ctx) subrs = some (m.callRoutine ctx subrs) := by
  simp only [callBy, callRoutine, calls]
  cases m.call ctx subrs <;> rfl

theorem callRoutine_restores (ctx : Context) (subrs : Cff.Index) (m : Machine) :
    (m.callRoutine ctx subrs).1.code = m.code ∧ (m.callRoutine ctx subrs).1.callers = m.callers :=
  callBy_restores orderly_calls callBy_calls

end PdfGraphics.Charstring.Machine
