import PdfGraphics.Cff.Index
import PdfGraphics.Cff.Operand
import PdfGraphics.Charstring.State
/-!
Running a charstring.

The machine takes one token at a time: an operand goes to the stack, an operator is first charged to
the budget and then executed. Where the bytes end, the caller's bytes go on. A run always ends,
since each token lowers the machine's potential.
-/

namespace PdfGraphics.Charstring

-- Bounds on the work that one charstring may do.
structure Limits where
  maxCallDepth : Nat := 64
  -- The most operators that are executed, with those in subroutines.
  maxOperators : Nat := 1048576
deriving DecidableEq

-- What a charstring takes from its font.
structure Context where
  globalSubrs : Cff.Index := {}
  localSubrs : Cff.Index := {}
  defaultWidth : Float32 := 0
  nominalWidth : Float32 := 0
  limits : Limits := {}

-- The number that is added to an operand to get the subroutine it means, of `count` in all.
def subroutineBias (count : Nat) : Nat :=
  if count < 1240 then 107 else if count < 33900 then 1131 else 32768

def subroutine? (subrs : Cff.Index) (n : Int) : Option (List UInt8) :=
  let i := n + subroutineBias subrs.count
  if 0 ≤ i then subrs.get? i.toNat else none

structure Machine where
  state : State := {}
  -- The bytes still to come, of the subroutine that runs or of the charstring itself.
  code : List UInt8
  -- The bytes still to come of the callers, the nearest first.
  callers : List (List UInt8) := []
  -- How many operators were charged.
  spent : Nat := 0

-- A machine that goes on, or the one with which a run ended and what stopped it early.
inductive Outcome
  | next (m : Machine)
  | stop (m : Machine) (error : Option DecodeError)

namespace Machine

-- The next byte, the bytes after it, and the callers that are left.
def fetch? : List UInt8 → List (List UInt8) → Option (UInt8 × List UInt8 × List (List UInt8))
  | b :: code, callers => some (b, code, callers)
  | [], code :: callers => fetch? code callers
  | [], [] => none

def fail (m : Machine) (e : DecodeError) : Outcome :=
  .stop m (some e)

-- Goes on in a state, or stops where the one before it was left.
def proceed (m : Machine) : Except DecodeError State → Outcome
  | .ok state => .next { m with state }
  | .error e => m.fail e

def call (ctx : Context) (subrs : Cff.Index) (m : Machine) : Outcome :=
  match m.state.stack with
  | [] => m.fail .stackUnderflow
  | v :: stack =>
    let n := Binary32.truncate v
    match subroutine? subrs n with
    | none => m.fail (.invalidSubroutineIndex n)
    | some code =>
      if m.callers.length < ctx.limits.maxCallDepth then
        .next { m with state := { m.state with stack }, code, callers := m.code :: m.callers }
      else
        m.fail (.recursionLimitExceeded (m.callers.length + 1))

def leave (m : Machine) : Outcome :=
  match m.callers with
  | [] => m.fail .unexpectedReturn
  | code :: callers => .next { m with code, callers }

-- Skips the bytes of a mask, after operands that declare vertical stems without their operator.
def mask (ctx : Context) (m : Machine) : Outcome :=
  let state := m.state.declareStems ctx.nominalWidth
  match Bytes.skip? state.maskSize m.code with
  | some code => .next { m with state, code }
  | none => .stop { m with state } (some .unexpectedEof)

def finish (ctx : Context) (m : Machine) : Outcome :=
  let (state, error) := m.state.finish ctx.nominalWidth
  .stop { m with state } error

def execute (ctx : Context) (op : Operator) (m : Machine) : Outcome :=
  match op with
  | .stem => .next { m with state := m.state.declareStems ctx.nominalWidth }
  | .mask => m.mask ctx
  | .move op => m.proceed (m.state.move ctx.nominalWidth op)
  | .path op => m.proceed (m.state.draw op)
  | .arithmetic op => m.proceed (m.state.compute op)
  | .callsubr => m.call ctx ctx.localSubrs
  | .callgsubr => m.call ctx ctx.globalSubrs
  | .leave => m.leave
  | .endchar => m.finish ctx

-- Takes the operand that begins with the byte `b`.
def takeOperand (b : UInt8) (m : Machine) : Outcome :=
  match Cff.Operand.readFrom .charstring b m.code with
  | .error e => m.fail e
  | .ok (v, code) =>
    match Stack.push v.toBinary32 m.state.stack with
    | .error e => m.fail e
    | .ok stack => .next { m with state := { m.state with stack }, code }

-- Reads the operator that begins with the byte `b`. It is charged before it is known.
def readOperator (ctx : Context) (b : UInt8) (m : Machine) : Machine × Except DecodeError Operator :=
  if m.spent < ctx.limits.maxOperators then
    let m := { m with spent := m.spent + 1 }
    match Operator.number? b m.code with
    | none => (m, .error .unexpectedEof)
    | some (n, code) =>
      match Operator.ofNumber? n with
      | none => (m, .error (.unsupportedCharstringOperator n))
      | some op => ({ m with code }, .ok op)
  else
    (m, .error .operationLimitExceeded)

def takeOperator (ctx : Context) (b : UInt8) (m : Machine) : Outcome :=
  match m.readOperator ctx b with
  | (m, .error e) => m.fail e
  | (m, .ok op) => execute ctx op m

def step (ctx : Context) (m : Machine) : Outcome :=
  match fetch? m.code m.callers with
  | none => .stop m none
  | some (b, code, callers) =>
    let m := { m with code, callers }
    if isOperand b then m.takeOperand b else m.takeOperator ctx b

-- Takes at most `fuel` tokens.
def runFor (ctx : Context) : Nat → Machine → Option (Machine × Option DecodeError)
  | 0, _ => none
  | fuel + 1, m =>
    match step ctx m with
    | .next m => runFor ctx fuel m
    | .stop m error => some (m, error)

-- A bound on the tokens that are still taken: an operator costs more than a full stack.
def potential (ctx : Context) (m : Machine) : Nat :=
  49 * (ctx.limits.maxOperators - m.spent) + (maxStack - m.state.stack.length)

theorem execute_spent {ctx : Context} {op : Operator} {m m' : Machine}
    (h : execute ctx op m = .next m') : m'.spent = m.spent := by
  cases op <;> simp only [execute, mask, proceed, call, leave, finish, fail] at h <;> grind

theorem potential_takeOperand {ctx : Context} {b : UInt8} {m m' : Machine}
    (h : m.takeOperand b = .next m') : m'.potential ctx < m.potential ctx := by
  simp only [takeOperand, fail, Stack.push] at h
  grind [potential, maxStack]

theorem readOperator_ok {ctx : Context} {b : UInt8} {m m' : Machine} {op : Operator}
    (h : m.readOperator ctx b = (m', .ok op)) :
    m.spent < ctx.limits.maxOperators ∧
      ∃ n code, Operator.number? b m.code = some (n, code) ∧ Operator.ofNumber? n = some op ∧
        m' = { m with code, spent := m.spent + 1 } := by
  simp only [readOperator] at h
  grind

theorem potential_takeOperator {ctx : Context} {b : UInt8} {m m' : Machine}
    (h : m.takeOperator ctx b = .next m') : m'.potential ctx < m.potential ctx := by
  simp only [takeOperator] at h
  split at h
  case h_1 => simp [fail] at h
  case h_2 m₁ op hr =>
    have ⟨hs, n, code, _, _, he⟩ := readOperator_ok hr
    have := execute_spent h
    grind [potential, maxStack]

theorem potential_step {ctx : Context} {m m' : Machine} (h : step ctx m = .next m') :
    m'.potential ctx < m.potential ctx := by
  simp only [step] at h
  split at h
  · simp at h
  · split at h
    · simpa [potential] using @potential_takeOperand ctx _ _ _ h
    · simpa [potential] using potential_takeOperator h

theorem isSome_runFor {ctx : Context} {fuel : Nat} {m : Machine} (h : m.potential ctx < fuel) :
    (runFor ctx fuel m).isSome := by
  induction fuel generalizing m with
  | zero => omega
  | succ fuel ih =>
    simp only [runFor]
    split
    case h_1 m' hs =>
      have := potential_step hs
      exact ih (by omega)
    case h_2 => rfl

-- Runs to the end.
def run (ctx : Context) (m : Machine) : Machine × Option DecodeError :=
  (runFor ctx (m.potential ctx + 1) m).get (isSome_runFor (Nat.lt_succ_self _))

end Machine

-- Runs a charstring. What was drawn before an error is there, too.
def run (ctx : Context) (code : List UInt8) : Drawing × Option DecodeError :=
  let (m, error) := Machine.run ctx { code }
  (m.state.drawing ctx.defaultWidth, error)

end PdfGraphics.Charstring
