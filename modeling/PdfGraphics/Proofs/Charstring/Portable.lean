import PdfGraphics.Proofs.Charstring.Nesting
import PdfGraphics.Proofs.Cff.Front
/-!
Bytes that are moved.

A token is made of its own bytes. It does the same in front of other bytes, at a lesser depth and
with less charged before it, and so does a whole part of a routine.
-/

namespace PdfGraphics.Charstring

theorem Operator.number?_front {b : UInt8} {n : Nat} {bytes rest : List UInt8}
    (h : number? b bytes = some (n, rest)) :
    ∃ front, bytes = front ++ rest ∧ ∀ z, number? b (front ++ z) = some (n, z) := by
  simp only [number?] at h ⊢
  split at h
  case isTrue hb =>
    cases bytes with
    | nil          => simp at h
    | cons b₁ tail =>
      cases h
      exact ⟨[b₁], rfl, fun z => by simp [hb]⟩
  case isFalse hb =>
    cases h
    exact ⟨[], rfl, fun z => by simp [hb]⟩

namespace Machine

-- `R` leads from `m` to `m'`, and it takes the bytes `front` and charges `k` also elsewhere: with
-- any bytes behind those, and with no more callers and no more spent than there were.
def Portable (R : Machine → Machine → Prop) (m m' : Machine) : Prop :=
  ∃ front k, m.code = front ++ m'.code ∧ m'.callers = m.callers ∧ m'.spent = m.spent + k ∧
    ∀ code callers spent, callers.length ≤ m.callers.length → spent ≤ m.spent →
      R ⟨m.state, front ++ code, callers, spent⟩ ⟨m'.state, code, callers, spent + k⟩

-- The same of routines that come back. They run to the end of the same bytes.
def PortableRuns (enter : Machine → Option Ending) : Prop :=
  ∀ m m' flow, enter m = some (m', .ok flow) → flow ≠ .ended →
    m'.callers = m.callers ∧ ∃ k, m'.spent = m.spent + k ∧
      ∀ callers spent, callers ≠ [] → callers.length ≤ m.callers.length → spent ≤ m.spent →
        enter ⟨m.state, m.code, callers, spent⟩ =
          some (⟨m'.state, m'.code, callers, spent + k⟩, .ok flow)

variable {ctx : Context} {enter : Machine → Option Ending} {m m₁ m₂ m₃ m' : Machine}
  {R S T : Machine → Machine → Prop} {subrs : Cff.Index} {flow : Flow} {fuel : Nat}
  {op : Operator}

namespace Portable

theorem trans (hr : Portable R m₁ m₂) (hs : Portable S m₂ m₃)
    (h : ∀ {m₁ m₂ m₃}, R m₁ m₂ → S m₂ m₃ → T m₁ m₃) : Portable T m₁ m₃ := by
  have ⟨f, k, hf, hc, hk, hr⟩ := hr
  have ⟨f', k', hf', hc', hk', hs⟩ := hs
  refine ⟨f ++ f', k + k', ?_, hc'.trans hc, by omega, fun code callers spent hd hl => ?_⟩
  · rw [hf, hf', List.append_assoc]
  · have := h (hr (f' ++ code) callers spent hd hl)
      (hs code callers (spent + k) (hc ▸ hd) (by omega))
    rwa [← List.append_assoc, Nat.add_assoc] at this

theorem mono (hr : Portable R m m') (h : ∀ {m m'}, R m m' → T m m') : Portable T m m' := by
  have ⟨f, k, hf, hc, hk, hr⟩ := hr
  exact ⟨f, k, hf, hc, hk, fun code callers spent hd hl => h (hr code callers spent hd hl)⟩

end Portable

theorem TakesOperand.portable (h : TakesOperand m (.next m')) :
    Portable (fun m m' => TakesOperand m (.next m')) m m' := by
  obtain ⟨b, code, hm, hb, h⟩ := h
  simp only [takeOperand, fail] at h
  split at h
  case h_1 => cases h
  case h_2 v rest hv =>
    split at h
    case h_1 => cases h
    case h_2 stack hp =>
      cases h
      obtain ⟨front, hf, hz⟩ := Cff.Operand.readFrom_front hv
      refine ⟨b :: front, 0, by simp [hm, hf], rfl, rfl, fun z callers spent _ _ => ?_⟩
      exact ⟨b, front ++ z, rfl, hb, by simp [takeOperand, hz, hp]⟩

theorem ReadsOperator.portable (h : ReadsOperator ctx m m' (.ok op)) :
    Portable (fun m m' => ReadsOperator ctx m m' (.ok op)) m m' := by
  have ⟨b, code, hm, hb, h⟩ := h
  have ⟨hs, n, rest, hn, ho, he⟩ := readOperator_ok h
  have ⟨front, hf, hz⟩ := Operator.number?_front hn
  have hf : code = front ++ rest := hf
  subst he
  refine ⟨b :: front, 1, by simp [hm, hf], rfl, rfl, fun z callers spent _ hl => ?_⟩
  have hs : spent < ctx.limits.maxOperators := Nat.lt_of_le_of_lt hl hs
  exact ⟨b, front ++ z, rfl, hb, by simp [readOperator, hs, hz, ho]⟩

theorem portable_proceed {f : State → Except DecodeError State}
    (h : m.proceed (f m.state) = .next m') :
    Portable (fun m m' => m.proceed (f m.state) = .next m') m m' := by
  cases hf : f m.state with
  | error e => simp [hf, proceed, fail] at h
  | ok s    =>
    rw [hf] at h
    cases h
    exact ⟨[], 0, rfl, rfl, rfl, fun z callers spent _ _ => by simp [hf, proceed]⟩

theorem portable_execute (hs : ctx.subrs? op = none) (hl : op ≠ .leave)
    (h : execute ctx op m = .next m') :
    Portable (fun m m' => execute ctx op m = .next m') m m' := by
  cases op with
  | stem          =>
    cases h
    exact ⟨[], 0, rfl, rfl, rfl, fun _ _ _ _ _ => rfl⟩
  | mask          =>
    simp only [execute, mask] at h
    split at h
    case h_1 code hk =>
      cases h
      obtain ⟨front, hf, hz⟩ := Bytes.skip?_front hk
      exact ⟨front, 0, hf, rfl, rfl, fun z _ _ _ _ => by simp [execute, mask, hz]⟩
    case h_2 => cases h
  | move op       => exact portable_proceed (f := fun s => s.move ctx.nominalWidth op) h
  | path op       => exact portable_proceed (f := fun s => s.draw op) h
  | arithmetic op => exact portable_proceed (f := fun s => s.compute op) h
  | callsubr      => simp [Context.subrs?] at hs
  | callgsubr     => simp [Context.subrs?] at hs
  | leave         => exact absurd rfl hl
  | endchar       => simp [execute, finish] at h

theorem portable_callBy (hp : PortableRuns enter) (hf : flow ≠ .ended)
    (h : m.callBy ctx enter subrs = some (m', .ok flow)) :
    Portable (fun m m' => m.callBy ctx enter subrs = some (m', .ok flow)) m m' := by
  have ⟨callee, back, hc, hback, he⟩ := callBy_back hf h
  have ⟨v, stack, body, hv, hb, hd, hcallee⟩ := call_next.mp hc
  subst hcallee
  have ⟨hcallers, k, hk, hp⟩ := hp _ _ _ hback hf
  rw [resume_of_callers hcallers] at he
  subst he
  refine ⟨[], k, rfl, rfl, hk, fun z callers spent hl hs => ?_⟩
  have hcall : call ctx subrs ⟨m.state, z, callers, spent⟩ =
      .next ⟨{ m.state with stack }, body, z :: callers, spent⟩ :=
    call_next.mpr ⟨v, stack, body, hv, hb, Nat.lt_of_le_of_lt hl hd, rfl⟩
  have hback := hp (z :: callers) spent nofun (Nat.succ_le_succ hl) hs
  exact callBy_some.mpr (.inl ⟨_, _, hcall, hback, rfl⟩)

theorem Turn.portable (hp : PortableRuns enter) (t : Turn ctx enter m m') :
    Portable (Turn ctx enter) m m' := by
  cases t with
  | operand h        => exact h.portable.mono .operand
  | plain hr hs hl h => exact hr.portable.trans (portable_execute hs hl h) (.plain · hs hl ·)
  | call hr hs h hf  => exact hr.portable.trans (portable_callBy hp hf h) (.call · hs · hf)

-- The last pass of a routine that comes back.
theorem Last.portable (hf : flow ≠ .ended) (l : Last ctx enter m (m', .ok flow)) :
    m'.callers = m.callers ∧ ∃ k, m'.spent = m.spent + k ∧
      ∀ callers spent, callers ≠ [] → callers.length ≤ m.callers.length → spent ≤ m.spent →
        Last ctx enter ⟨m.state, m.code, callers, spent⟩
          (⟨m'.state, m'.code, callers, spent + k⟩, .ok flow) := by
  match l.back hf with
  | .inl ⟨hflow, hm, he⟩ =>
    subst hflow he
    exact ⟨rfl, 0, rfl, fun callers spent _ _ _ => .exhausted hm⟩
  | .inr ⟨hflow, _, hr⟩ =>
    subst hflow
    have ⟨front, k, hm, hc, hk, hr⟩ := hr.portable
    refine ⟨hc, k, hk, fun callers spent hn hd hs => ?_⟩
    have hr := hr m'.code callers spent hd hs
    rw [← hm] at hr
    have l := @Last.leave ctx enter _ _ hr
    simpa [hn] using l

-- A routine takes as many passes elsewhere, so the fuel is the same.
theorem portableRuns_routineFor (fuel : Nat) : PortableRuns (routineFor ctx fuel) := by
  induction fuel with
  | zero         =>
    intro m m' flow h
    cases h
  | succ fuel ih =>
    intro m m' flow h hf
    match routineFor_succ.mp h with
    | .inl ⟨m₁, t, h⟩ =>
      have ⟨front, k, hm, hc, hk, ht⟩ := t.portable ih
      have ⟨hc', k', hk', h'⟩ := ih _ _ _ h hf
      refine ⟨hc'.trans hc, k + k', by omega, fun callers spent hn hd hs => ?_⟩
      have t := ht m₁.code callers spent hd hs
      have h := h' callers (spent + k) hn (hc ▸ hd) (by omega)
      rw [← hm] at t
      rw [Nat.add_assoc] at h
      exact routineFor_succ.mpr (.inl ⟨_, t, h⟩)
    | .inr l =>
      have ⟨hc, k, hk, hl⟩ := l.portable hf
      refine ⟨hc, k, hk, fun callers spent hn hd hs => ?_⟩
      exact routineFor_succ.mpr (.inr (hl callers spent hn hd hs))

theorem portableRuns_calls : PortableRuns (calls ctx) := by
  intro m m' flow h hf
  have ⟨hc, k, hk, hr⟩ := portableRuns_routineFor _ m m' flow (routineFor_of_calls h) hf
  exact ⟨hc, k, hk, fun callers spent hn hd hs => calls_of_routineFor (hr callers spent hn hd hs)⟩

theorem Turns.portable (t : Turns ctx m m') : Portable (Turns ctx) m m' := by
  induction t with
  | refl        => exact ⟨[], 0, rfl, rfl, rfl, fun _ _ _ _ _ => .refl⟩
  | step t _ ih => exact (t.portable portableRuns_calls).trans ih .step

end Machine

end PdfGraphics.Charstring
