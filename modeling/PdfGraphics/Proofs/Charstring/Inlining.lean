import Mathlib.Control.Monad.Basic
import PdfGraphics.Proofs.Charstring.Agreement
import PdfGraphics.Proofs.Charstring.Portable
/-!
Calls of subroutines.

A call that comes back does what the subroutine's bytes would do in its place.
-/

namespace PdfGraphics.Charstring

-- The bytes of the operators that call a subroutine, and the subroutines they call one of.
inductive Context.Calls (ctx : Context) : UInt8 → Cff.Index → Prop
  | callsubr : ctx.Calls 10 ctx.localSubrs
  | callgsubr : ctx.Calls 29 ctx.globalSubrs

namespace Operator

theorem ofNumber?_leave {n : Nat} (h : ofNumber? n = some leave) : n = 11 := by
  simp only [ofNumber?] at h
  split at h
  case h_11 => rfl
  all_goals cases h

theorem number?_return {b : UInt8} {bytes rest : List UInt8}
    (h : number? b bytes = some (11, rest)) : b = 11 ∧ bytes = rest := by
  simp only [number?] at h
  split at h
  case isTrue =>
    cases bytes with
    | nil       => cases h
    | cons b₁ _ =>
      have : 1200 + b₁.toNat = 11 := (Prod.mk.inj (Option.some.inj h)).left
      omega
  case isFalse =>
    obtain ⟨hb, he⟩ := Prod.mk.inj (Option.some.inj h)
    exact ⟨UInt8.toNat_inj.mp hb, he⟩

end Operator

-- How many operators are charged for coming back.
def Flow.charge : Flow → Nat
  | returned => 1
  | ended | exhausted => 0

-- The bytes in front of which a routine comes back.
inductive Flow.StopsAt : Flow → List UInt8 → Prop
  | returned {code : List UInt8} : StopsAt returned (11 :: code)
  | exhausted : StopsAt exhausted []

namespace Machine

variable {ctx : Context} {enter : Machine → Option Ending} {m m' : Machine} {flow : Flow}
  {subrs : Cff.Index} {b : UInt8} {rest : List UInt8}

theorem ReadsOperator.leave_code (hr : ReadsOperator ctx m m' (.ok .leave)) :
    m.code = 11 :: m'.code ∧ m'.state = m.state ∧ m'.spent = m.spent + 1 := by
  have ⟨b, code, hm, _, hr⟩ := hr
  have ⟨_, n, rest, hn, ho, he⟩ := readOperator_ok hr
  cases Operator.ofNumber?_leave ho
  have ⟨hb, hrest⟩ := Operator.number?_return hn
  have hrest : code = rest := hrest
  rw [hm, hb, hrest, he]
  exact ⟨rfl, rfl, rfl⟩

theorem Last.stopsAt (hf : flow ≠ .ended) (l : Last ctx enter m (m', .ok flow)) :
    flow.StopsAt m.code ∧ m'.state = m.state ∧ m'.spent = m.spent + flow.charge := by
  match l.back hf with
  | .inl ⟨hflow, hm, he⟩ =>
    subst hflow he
    exact ⟨hm ▸ .exhausted, rfl, rfl⟩
  | .inr ⟨hflow, _, hr⟩ =>
    subst hflow
    have ⟨hm, hs, hk⟩ := hr.leave_code
    exact ⟨hm ▸ .returned, hs, hk⟩

theorem readsOperator_call (hc : ctx.Calls b subrs) (hm : m.code = b :: rest)
    (hs : m.spent < ctx.limits.maxOperators) : ∃ op, ctx.subrs? op = some subrs ∧
      ReadsOperator ctx m { m with code := rest, spent := m.spent + 1 } (.ok op) := by
  cases hc with
  | callsubr  =>
    exact ⟨.callsubr, rfl, 10, rest, hm, by decide,
      by simp [readOperator, hs, Operator.number?, escapeByte, Operator.ofNumber?]⟩
  | callgsubr =>
    exact ⟨.callgsubr, rfl, 29, rest, hm, by decide,
      by simp [readOperator, hs, Operator.number?, escapeByte, Operator.ofNumber?]⟩

-- The routine of a call that comes back, up to the bytes where it does.
theorem callRoutine_back {v : Float32} {stack : Stack} {body : List UInt8} (hf : flow ≠ .ended)
    (h : (m.callRoutine ctx subrs).2 = .ok flow) (hv : m.state.stack = v :: stack)
    (hb : subroutine? subrs (Binary32.truncate v) = some body) :
    ∃ r, Turns ctx ⟨{ m.state with stack }, body, m.code :: m.callers, m.spent⟩ r ∧
      flow.StopsAt r.code ∧ (m.callRoutine ctx subrs).1.state = r.state ∧
        (m.callRoutine ctx subrs).1.spent = r.spent + flow.charge := by
  have hcall : m.callBy ctx (calls ctx) subrs = some ((m.callRoutine ctx subrs).1, .ok flow) := by
    rw [callBy_calls, ← h]
  have ⟨callee, back, hc, hback, hn⟩ := callBy_back hf hcall
  have ⟨v', stack', body', hv', hb', _, hcallee⟩ := call_next.mp hc
  cases hv.symm.trans hv'
  cases hb.symm.trans hb'
  have ⟨r, ts, l⟩ := turns_of_routineFor (routineFor_of_calls hback)
  have ⟨hstop, hstate, hspent⟩ := l.stopsAt hf
  rw [hn, resume_state, resume_spent]
  exact ⟨r, hcallee ▸ ts, hstop, hstate, hspent⟩

-- A call goes back to the bytes after it and to the depth it was made at, whatever comes of it, and
-- the machine goes on from there. If the call comes back from the bytes `body`, having executed
-- those of them in `executed`, then those bytes in place of the call do just the same. They only
-- spare what is charged for calling and for coming back.
theorem call_inlined (hc : ctx.Calls b subrs) (hm : m.code = b :: rest)
    (hs : m.spent < ctx.limits.maxOperators) :
    let ending := callRoutine ctx subrs { m with code := rest, spent := m.spent + 1 }
    let n := ending.1
    n.code = rest ∧ n.callers = m.callers ∧ m.leaves ctx = ending.leaves ctx ∧
    ∀ flow v stack body, ending.2 = .ok flow → flow ≠ .ended →
      m.state.stack = v :: stack → subroutine? subrs (Binary32.truncate v) = some body →
      Turn ctx (calls ctx) m n ∧ ∃ executed r spent,
        Turns ctx ⟨{ m.state with stack }, body, rest :: m.callers, m.spent + 1⟩ r ∧
        body = executed ++ r.code ∧ flow.StopsAt r.code ∧
        Turns ctx ⟨{ m.state with stack }, executed ++ rest, m.callers, m.spent⟩
          ⟨n.state, rest, m.callers, spent⟩ ∧
        n.spent = spent + 1 + flow.charge := by
  intro ending n
  have ⟨op, hop, hr⟩ := readsOperator_call hc hm hs
  have ⟨hcode, hcallers⟩ :=
    callRoutine_restores ctx subrs { m with code := rest, spent := m.spent + 1 }
  refine ⟨hcode, hcallers, leaves_callBy agrees_calls hop hr callBy_calls, ?_⟩
  intro flow v stack body h hf hv hb
  have hcall : callBy ctx (calls ctx) subrs { m with code := rest, spent := m.spent + 1 } =
      some (n, .ok flow) := by rw [callBy_calls, ← h]
  have ⟨r, ts, hstop, hstate, hspent⟩ := callRoutine_back hf h hv hb
  have ⟨executed, k, hbody, _, hk, hp⟩ := ts.portable
  have hp := hp rest m.callers m.spent (Nat.le_succ _) (Nat.le_succ _)
  rw [← hstate] at hp
  refine ⟨.call hr hop hcall hf, executed, r, m.spent + k, ts, hbody, hstop, hp, ?_⟩
  have hspent : n.spent = r.spent + flow.charge := hspent
  have hk : r.spent = m.spent + 1 + k := hk
  omega

-- The only local subroutine moves the pen and comes back before its end.
def earlyReturn : Context where
  localSubrs := { entries := #[(0, [140, 22, 11, 14])] }

-- It is called in front of a line.
theorem call_inlined_earlyReturn :
    let m : Machine := { state := { stack := [-107] }, code := [10, 141, 6] }
    let ending := callRoutine earlyReturn earlyReturn.localSubrs
      { m with code := [141, 6], spent := 1 }
    ending.2 = .ok .returned ∧ ending.1.code = [141, 6] ∧ ending.1.callers = [] ∧
      ∃ (executed : List UInt8) (r : Machine) (spent : Nat), [140, 22, 11, 14] = executed ++ r.code ∧
        Flow.returned.StopsAt r.code ∧
        Turns earlyReturn ⟨{ m.state with stack := [] }, executed ++ [141, 6], [], 0⟩
          ⟨ending.1.state, [141, 6], [], spent⟩ ∧
        ending.1.spent = spent + 1 + 1 := by
  intro m ending
  have he : ending.2 = .ok .returned := by decide +kernel
  have ⟨hcode, hcallers, _, h⟩ :=
    @call_inlined earlyReturn m _ 10 [141, 6] .callsubr rfl (by decide)
  have ⟨_, executed, r, spent, _, hbody, hstop, hinlined, hspent⟩ :=
    h .returned (-107) [] [140, 22, 11, 14] he (by decide) rfl (by decide +kernel)
  exact ⟨he, hcode, hcallers, executed, r, spent, hbody, hstop, hinlined, hspent⟩

end Machine

end PdfGraphics.Charstring
