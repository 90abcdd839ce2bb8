import PdfGraphics.Proofs.Charstring.Steps
/-!
Routines.

A routine is the bytes of a subroutine, or of the charstring itself, that run to their end with each
call of a subroutine as a routine of its own. The machine instead keeps the bytes of all callers on
one stack.
-/

namespace PdfGraphics.Charstring

-- How a routine ends without an error.
inductive Flow
  -- By the operator that goes back to the caller.
  | returned
  -- By the operator that ends the whole charstring.
  | ended
  | exhausted
deriving DecidableEq

def Flow.ofStop : Option DecodeError → Except DecodeError Flow
  | none => .ok ended
  | some e => .error e

namespace Machine

-- The machine at the end of a routine, still with the routine's bytes, and what ended it.
abbrev Ending := Machine × Except DecodeError Flow

-- What one pass of the loop over a routine's bytes comes to.
inductive Pass
  | next (m : Machine)
  | done (ending : Ending)

namespace Pass

def ofOutcome : Outcome → Pass
  | .next m => next m
  | .stop m e => done (m, Flow.ofStop e)

-- The caller goes on, unless the whole charstring has come to its end.
def ofCall : Ending → Pass
  | (m, .ok .ended) => done (m, .ok .ended)
  | (m, .ok _) => next m
  | (m, .error e) => done (m, .error e)

end Pass

-- Goes back to the bytes of the nearest caller.
def resume (m : Machine) : Machine :=
  match m.callers with
  | [] => m
  | code :: callers => { m with code, callers }

section

variable (ctx : Context) (enter : Machine → Option Ending)

-- Calls a subroutine, which `enter` takes to its end, and goes back whatever came of it.
def callBy (subrs : Cff.Index) (m : Machine) : Option Ending :=
  match m.call ctx subrs with
  | .next callee => (enter callee).map fun (m, result) => (m.resume, result)
  | .stop m e => some (m, Flow.ofStop e)

def performBy (op : Operator) (m : Machine) : Option Pass :=
  match ctx.subrs? op with
  | some subrs => (m.callBy ctx enter subrs).map .ofCall
  | none =>
    if op = .leave then
      some (.done (m, if m.callers.isEmpty then .error .unexpectedReturn else .ok .returned))
    else
      some (.ofOutcome (execute ctx op m))

def passBy (m : Machine) : Option Pass :=
  match m.code with
  | [] => some (.done (m, .ok .exhausted))
  | b :: code =>
    let m := { m with code }
    if isOperand b then
      some (.ofOutcome (m.takeOperand b))
    else
      match m.readOperator ctx b with
      | (m, .error e) => some (.done (m, .error e))
      | (m, .ok op) => m.performBy ctx enter op

end

-- Takes a routine to its end in less than `fuel` passes, where those of its calls count apart.
def routineFor (ctx : Context) : Nat → Machine → Option Ending
  | 0, _ => none
  | fuel + 1, m =>
    match m.passBy ctx (routineFor ctx fuel) with
    | none => none
    | some (.next m) => routineFor ctx fuel m
    | some (.done ending) => some ending

section

variable {m : Machine}

@[simp] theorem resume_state : m.resume.state = m.state := by
  simp only [resume]
  split <;> rfl

@[simp] theorem resume_spent : m.resume.spent = m.spent := by
  simp only [resume]
  split <;> rfl

theorem resume_of_callers {code : List UInt8} {callers : List (List UInt8)}
    (h : m.callers = code :: callers) : m.resume = { m with code, callers } := by
  simp [resume, h]

end

variable {ctx : Context} {enter enter' : Machine → Option Ending} {m m' callee : Machine}
  {subrs : Cff.Index} {flow : Flow} {result : Except DecodeError Flow} {fuel : Nat} {op : Operator}

theorem call_next : m.call ctx subrs = .next callee ↔
    ∃ v stack body, m.state.stack = v :: stack ∧
      subroutine? subrs (Binary32.truncate v) = some body ∧
      m.callers.length < ctx.limits.maxCallDepth ∧
      callee = ⟨{ m.state with stack }, body, m.code :: m.callers, m.spent⟩ := by
  constructor
  · intro h
    simp only [call, fail] at h
    split at h
    case h_1 => cases h
    case h_2 v stack hv =>
      split at h
      case h_1 => cases h
      case h_2 body hb =>
        split at h
        case isFalse => cases h
        case isTrue hd =>
          cases h
          exact ⟨v, stack, body, hv, hb, hd, rfl⟩
  · intro h
    obtain ⟨v, stack, body, hv, hb, hd, he⟩ := h
    simp [call, hv, hb, hd, he]

-- A call that cannot be made leaves the machine as it was.
theorem call_stop {e : Option DecodeError} (h : m.call ctx subrs = .stop m' e) :
    m' = m ∧ e.isSome := by
  simp only [call, fail] at h
  split at h
  case h_1 =>
    cases h
    exact ⟨rfl, rfl⟩
  case h_2 =>
    split at h
    case h_1 =>
      cases h
      exact ⟨rfl, rfl⟩
    case h_2 =>
      split at h
      case isTrue => cases h
      case isFalse =>
        cases h
        exact ⟨rfl, rfl⟩

-- What comes back from a call either comes from the subroutine, or the call could not be made.
theorem callBy_some : m.callBy ctx enter subrs = some (m', result) ↔
    (∃ callee back, m.call ctx subrs = .next callee ∧ enter callee = some (back, result) ∧
      m' = back.resume) ∨
    ∃ e, m.call ctx subrs = .stop m' e ∧ result = Flow.ofStop e := by
  constructor
  · intro h
    simp only [callBy] at h
    split at h
    case h_1 callee hc =>
      simp only [Option.map_eq_some_iff] at h
      have ⟨⟨back, result⟩, hr, he⟩ := h
      cases he
      exact .inl ⟨callee, back, hc, hr, rfl⟩
    case h_2 m₁ e hc =>
      cases h
      exact .inr ⟨e, hc, rfl⟩
  · intro h
    match h with
    | .inl ⟨callee, back, hc, hr, he⟩ => simp [callBy, hc, hr, he]
    | .inr ⟨e, hc, he⟩                => simp [callBy, hc, he]

theorem callBy_back (hf : flow ≠ .ended) (h : m.callBy ctx enter subrs = some (m', .ok flow)) :
    ∃ callee back, m.call ctx subrs = .next callee ∧ enter callee = some (back, .ok flow) ∧
      m' = back.resume := by
  match callBy_some.mp h with
  | .inl hc         => exact hc
  | .inr ⟨e, _, he⟩ =>
    cases e <;> cases he
    exact absurd rfl hf

-- The next token is an operand, and this is the outcome of it.
def TakesOperand (m : Machine) (o : Outcome) : Prop :=
  ∃ b code, m.code = b :: code ∧ isOperand b ∧ takeOperand b { m with code } = o

-- The next token is an operator, and this is what reading it comes to.
def ReadsOperator (ctx : Context) (m m' : Machine) (op : Except DecodeError Operator) : Prop :=
  ∃ b code, m.code = b :: code ∧ ¬isOperand b ∧ readOperator ctx b { m with code } = (m', op)

-- One pass of the loop, after which the routine goes on.
inductive Turn (ctx : Context) (enter : Machine → Option Ending) (m m' : Machine) : Prop
  | operand (h : TakesOperand m (.next m'))
  | plain {m₁ : Machine} {op : Operator} (hr : ReadsOperator ctx m m₁ (.ok op))
    (hs : ctx.subrs? op = none) (hl : op ≠ .leave) (h : execute ctx op m₁ = .next m')
  | call {m₁ : Machine} {op : Operator} {subrs : Cff.Index} {flow : Flow}
    (hr : ReadsOperator ctx m m₁ (.ok op)) (hs : ctx.subrs? op = some subrs)
    (h : m₁.callBy ctx enter subrs = some (m', .ok flow)) (hf : flow ≠ .ended)

-- The pass with which a routine ends.
inductive Last (ctx : Context) (enter : Machine → Option Ending) (m : Machine) : Ending → Prop
  | exhausted (hm : m.code = []) : Last ctx enter m (m, .ok .exhausted)
  | operand {m' : Machine} {e : Option DecodeError} (h : TakesOperand m (.stop m' e)) :
    Last ctx enter m (m', Flow.ofStop e)
  | unread {m' : Machine} {e : DecodeError} (hr : ReadsOperator ctx m m' (.error e)) :
    Last ctx enter m (m', .error e)
  | leave {m' : Machine} (hr : ReadsOperator ctx m m' (.ok .leave)) :
    Last ctx enter m
      (m', if m'.callers.isEmpty then .error .unexpectedReturn else .ok .returned)
  | plain {m₁ m' : Machine} {op : Operator} {e : Option DecodeError}
    (hr : ReadsOperator ctx m m₁ (.ok op)) (hs : ctx.subrs? op = none) (hl : op ≠ .leave)
    (h : execute ctx op m₁ = .stop m' e) : Last ctx enter m (m', Flow.ofStop e)
  | call {m₁ m' : Machine} {op : Operator} {subrs : Cff.Index}
    {result : Except DecodeError Flow} (hr : ReadsOperator ctx m m₁ (.ok op))
    (hs : ctx.subrs? op = some subrs) (h : m₁.callBy ctx enter subrs = some (m', result))
    (hf : ∀ flow, result = .ok flow → flow = .ended) : Last ctx enter m (m', result)

theorem ofOutcome_cases {o : Outcome} {pass : Pass} (h : Pass.ofOutcome o = pass) :
    (∃ m, o = .next m ∧ pass = .next m) ∨
      ∃ m e, o = .stop m e ∧ pass = .done (m, Flow.ofStop e) := by
  cases o with
  | next m   => exact .inl ⟨m, rfl, h.symm⟩
  | stop m e => exact .inr ⟨m, e, rfl, h.symm⟩

theorem ofCall_cases {ending : Ending} {pass : Pass} (h : Pass.ofCall ending = pass) :
    (∃ m flow, flow ≠ .ended ∧ ending = (m, .ok flow) ∧ pass = .next m) ∨
      (∀ flow, ending.2 = .ok flow → flow = .ended) ∧ pass = .done ending := by
  match ending with
  | (m, .ok .returned)  => exact .inl ⟨m, _, by decide, rfl, h.symm⟩
  | (m, .ok .ended)     => exact .inr ⟨fun _ he => (Except.ok.inj he).symm, h.symm⟩
  | (m, .ok .exhausted) => exact .inl ⟨m, _, by decide, rfl, h.symm⟩
  | (m, .error e)       => exact .inr ⟨nofun, h.symm⟩

-- There are no passes but these.
theorem passBy_cases {pass : Pass} (h : m.passBy ctx enter = some pass) :
    (∃ m', pass = .next m' ∧ Turn ctx enter m m') ∨
      ∃ ending, pass = .done ending ∧ Last ctx enter m ending := by
  simp only [passBy] at h
  split at h
  case h_1 hm =>
    cases h
    exact .inr ⟨_, rfl, .exhausted hm⟩
  case h_2 b code hm =>
    split at h
    case isTrue hb =>
      cases ofOutcome_cases (Option.some.inj h) with
      | inl ho =>
        obtain ⟨m', ho, hp⟩ := ho
        exact .inl ⟨m', hp, .operand ⟨b, code, hm, hb, ho⟩⟩
      | inr ho =>
        obtain ⟨m', e, ho, hp⟩ := ho
        exact .inr ⟨_, hp, .operand ⟨b, code, hm, hb, ho⟩⟩
    case isFalse hb =>
      split at h
      case h_1 m' e hr =>
        cases h
        exact .inr ⟨_, rfl, .unread ⟨b, code, hm, hb, hr⟩⟩
      case h_2 m₁ op hr =>
        have hr : ReadsOperator ctx m m₁ (.ok op) := ⟨b, code, hm, hb, hr⟩
        simp only [performBy] at h
        split at h
        case h_1 subrs hs =>
          simp only [Option.map_eq_some_iff] at h
          obtain ⟨⟨m', result⟩, hc, he⟩ := h
          cases ofCall_cases he with
          | inl hback =>
            obtain ⟨m'', flow, hf, he', hp⟩ := hback
            cases he'
            exact .inl ⟨m', hp, .call hr hs hc hf⟩
          | inr hend  => exact .inr ⟨_, hend.right, .call hr hs hc hend.left⟩
        case h_2 hs =>
          split at h
          case isTrue hl =>
            cases h
            exact .inr ⟨_, rfl, .leave (hl ▸ hr)⟩
          case isFalse hl =>
            cases ofOutcome_cases (Option.some.inj h) with
            | inl ho =>
              obtain ⟨m', ho, hp⟩ := ho
              exact .inl ⟨m', hp, .plain hr hs hl ho⟩
            | inr ho =>
              obtain ⟨m', e, ho, hp⟩ := ho
              exact .inr ⟨_, hp, .plain hr hs hl ho⟩

theorem passBy_operand {o : Outcome} (h : TakesOperand m o) :
    m.passBy ctx enter = some (.ofOutcome o) := by
  have ⟨b, code, hm, hb, h⟩ := h
  simp [passBy, hm, hb, h]

theorem passBy_operator (hr : ReadsOperator ctx m m' (.ok op)) :
    m.passBy ctx enter = m'.performBy ctx enter op := by
  have ⟨b, code, hm, hb, hr⟩ := hr
  simp [passBy, hm, hb, hr]

theorem Turn.passBy_eq (t : Turn ctx enter m m') : m.passBy ctx enter = some (.next m') := by
  cases t with
  | operand h                => simp [passBy_operand h, Pass.ofOutcome]
  | plain hr hs hl h         => simp [passBy_operator hr, performBy, hs, hl, h, Pass.ofOutcome]
  | @call _ _ _ flow hr hs h hf =>
    cases flow with
    | ended                => exact absurd rfl hf
    | returned | exhausted => simp [passBy_operator hr, performBy, hs, h, Pass.ofCall]

theorem Last.passBy_eq {ending : Ending} (l : Last ctx enter m ending) :
    m.passBy ctx enter = some (.done ending) := by
  cases l with
  | exhausted hm     => simp [passBy, hm]
  | operand h        => simp [passBy_operand h, Pass.ofOutcome]
  | unread hr        =>
    have ⟨b, code, hm, hb, hr⟩ := hr
    simp [passBy, hm, hb, hr]
  | leave hr         => simp [passBy_operator hr, performBy, Context.subrs?]
  | plain hr hs hl h => simp [passBy_operator hr, performBy, hs, hl, h, Pass.ofOutcome]
  | @call _ _ _ _ result hr hs h hf =>
    cases result with
    | ok flow =>
      cases hf flow rfl
      simp [passBy_operator hr, performBy, hs, h, Pass.ofCall]
    | error e => simp [passBy_operator hr, performBy, hs, h, Pass.ofCall]

-- A routine either takes a turn and goes on from there, or ends.
theorem routineFor_succ {ending : Ending} : routineFor ctx (fuel + 1) m = some ending ↔
    (∃ m', Turn ctx (routineFor ctx fuel) m m' ∧ routineFor ctx fuel m' = some ending) ∨
      Last ctx (routineFor ctx fuel) m ending := by
  constructor
  · intro h
    simp only [routineFor] at h
    split at h
    case h_1 => cases h
    case h_2 m' hp =>
      match passBy_cases hp with
      | .inl ⟨_, he, t⟩ =>
        cases he
        exact .inl ⟨m', t, h⟩
      | .inr ⟨_, he, _⟩ => cases he
    case h_3 hp =>
      cases h
      match passBy_cases hp with
      | .inl ⟨_, he, _⟩ => cases he
      | .inr ⟨_, he, l⟩ =>
        cases he
        exact .inr l
  · intro h
    match h with
    | .inl ⟨m', t, h⟩ => simp only [routineFor, t.passBy_eq, h]
    | .inr l           => simp only [routineFor, l.passBy_eq]

end Machine

end PdfGraphics.Charstring
