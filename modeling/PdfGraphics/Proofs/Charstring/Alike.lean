import PdfGraphics.Proofs.Charstring.Steps
/-!
Two machines side by side.

Their bytes may differ. As long as each token does the same to both of them, their runs end in one
state and for one reason.
-/

namespace PdfGraphics.Charstring

-- Two machines go on as `R` relates them, or both stop in one state and for one reason.
inductive Outcome.Alike (R : Machine → Machine → Prop) : Outcome → Outcome → Prop
  | next {m m' : Machine} (h : R m m') : Alike R (.next m) (.next m')
  | stop {m m' : Machine} {e : Option DecodeError} (h : m'.state = m.state) :
    Alike R (.stop m e) (.stop m' e)

-- The operators that take no bytes after their own and go to no others.
def Operator.stays : Operator → Bool
  | .mask | .callsubr | .callgsubr | .leave => false
  | _ => true

open Machine

variable {ctx ctx' : Context} {R : Machine → Machine → Prop} {m m' m₁ m₁' m₂ : Machine} {n : Nat}
  {op : Operator} {e : Option DecodeError}

namespace Machine

open Outcome

theorem alike_proceed {result : Except DecodeError State} (hs : m'.state = m.state)
    (h : ∀ s, R { m with state := s } { m' with state := s }) :
    Alike R (m.proceed result) (m'.proceed result) := by
  cases result with
  | ok s    => exact .next (h s)
  | error _ => exact .stop hs

theorem alike_execute (hn : ctx'.nominalWidth = ctx.nominalWidth) (ho : op.stays = true)
    (hs : m'.state = m.state) (h : ∀ s, R { m with state := s } { m' with state := s }) :
    Alike R (execute ctx op m) (execute ctx' op m') := by
  cases op with
  | stem          =>
    simp only [execute, hn, hs]
    exact .next (h _)
  | move op       =>
    simp only [execute, hn, hs]
    exact alike_proceed hs h
  | path op       =>
    simp only [execute, hs]
    exact alike_proceed hs h
  | arithmetic op =>
    simp only [execute, hs]
    exact alike_proceed hs h
  | endchar       =>
    simp only [execute, finish, hn, hs]
    exact .stop rfl
  | mask | callsubr | callgsubr | leave => cases ho

end Machine

-- Both have taken `n` tokens, and the next one stops both.
theorem run_eq_of_alike {code code' : List UInt8} (hd : ctx'.defaultWidth = ctx.defaultWidth)
    (s : Steps ctx n { code } m₁) (s' : Steps ctx' n { code := code' } m₁')
    (hs : step ctx m₁ = .stop m₂ e) (h : Outcome.Alike R (step ctx m₁) (step ctx' m₁')) :
    run ctx' code' = run ctx code := by
  rw [hs] at h
  generalize hs' : step ctx' m₁' = o at h
  cases h with
  | stop hm => simp only [run, run_of_steps s hs, run_of_steps s' hs', hm, State.drawing, hd]

end PdfGraphics.Charstring
