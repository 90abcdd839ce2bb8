import PdfGraphics.Proofs.Charstring.Change
/-!
Runs of the machine, token by token.

A run with enough fuel goes through some number of tokens and then stops; fuel plays no other part.
-/

namespace PdfGraphics.Charstring.Machine

-- The machine `m₁` takes `n` tokens, is not stopped by them, and becomes `m₂`.
inductive Steps (ctx : Context) : Nat → Machine → Machine → Prop
  | refl {m : Machine} : Steps ctx 0 m m
  | step {n : Nat} {m₁ m₂ m₃ : Machine} :
    (step ctx m₁ = .next m₂) → (Steps ctx n m₂ m₃) → Steps ctx (n + 1) m₁ m₃

variable {ctx : Context} {m m₁ m₂ m₃ : Machine} {e : Option DecodeError} {n fuel : Nat}

namespace Steps

theorem trans {k : Nat} (s₁ : Steps ctx n m₁ m₂) (s₂ : Steps ctx k m₂ m₃) :
    Steps ctx (k + n) m₁ m₃ := by
  induction s₁ with
  | refl        => exact s₂
  | step h _ ih => exact .step h (ih s₂)

-- What each token keeps, a run keeps.
theorem preserves {P : Machine → Prop} (hp : ∀ m, P m → P (Machine.step ctx m).machine)
    (s : Steps ctx n m₁ m₂) (h : P m₁) : P m₂ := by
  induction s with
  | refl         => exact h
  | step hs _ ih => exact ih (by simpa [hs] using hp _ h)

theorem potential_le (s : Steps ctx n m₁ m₂) : m₂.potential ctx + n ≤ m₁.potential ctx := by
  induction s with
  | refl => simp
  | step h _ ih =>
    have := potential_step h
    omega

theorem runFor_eq (s : Steps ctx n m₁ m₂) (fuel : Nat) :
    runFor ctx (fuel + n) m₁ = runFor ctx fuel m₂ := by
  induction s with
  | refl => rfl
  | step h _ ih =>
    rw [← ih, ← Nat.add_assoc, runFor]
    simp only [h]

end Steps

theorem steps_of_runFor (h : runFor ctx fuel m = some (m₂, e)) :
    ∃ n m₁, n < fuel ∧ Steps ctx n m m₁ ∧ step ctx m₁ = .stop m₂ e := by
  induction fuel generalizing m with
  | zero => simp [runFor] at h
  | succ fuel ih =>
    simp only [runFor] at h
    split at h
    case h_1 m' hs =>
      obtain ⟨n, m₁, hn, s, hm₁⟩ := ih h
      exact ⟨n + 1, m₁, by omega, .step hs s, hm₁⟩
    case h_2 m' e' hs =>
      cases h
      exact ⟨0, m, by omega, .refl, hs⟩

theorem runFor_of_steps (s : Steps ctx n m m₁) (h : step ctx m₁ = .stop m₂ e) (hn : n < fuel) :
    runFor ctx fuel m = some (m₂, e) := by
  have ⟨k, hk⟩ := Nat.exists_eq_add_of_lt hn
  subst hk
  rw [show n + k + 1 = (k + 1) + n by omega, s.runFor_eq, runFor]
  simp only [h]

theorem runFor_run : runFor ctx (m.potential ctx + 1) m = some (run ctx m) := by
  simp [run]

theorem steps_run (ctx : Context) (m : Machine) :
    ∃ n m₁, Steps ctx n m m₁ ∧ step ctx m₁ = .stop (run ctx m).1 (run ctx m).2 := by
  have ⟨n, m₁, _, s, h⟩ := steps_of_runFor (@runFor_run ctx m)
  exact ⟨n, m₁, s, h⟩

theorem run_of_steps (s : Steps ctx n m m₁) (h : step ctx m₁ = .stop m₂ e) :
    run ctx m = (m₂, e) := by
  have hn := s.potential_le
  have := runFor_of_steps s h (show n < m.potential ctx + 1 by omega)
  rw [runFor_run] at this
  exact Option.some.inj this

theorem run_eq_of_steps (s : Steps ctx n m₁ m₂) : run ctx m₁ = run ctx m₂ :=
  have ⟨_, _, s', h⟩ := steps_run ctx m₂
  run_of_steps (s.trans s') h

-- More fuel than a run needs does not change its answer.
theorem runFor_of_potential_lt (h : m.potential ctx < fuel) :
    runFor ctx fuel m = some (run ctx m) := by
  have ⟨n, m₁, s, hs⟩ := steps_run ctx m
  have hn := s.potential_le
  exact runFor_of_steps s hs (by omega)

-- What each token keeps, the machine with which a run ends has kept.
theorem run_preserves {P : Machine → Prop} (hp : ∀ m, P m → P (step ctx m).machine) (h : P m) :
    P (run ctx m).1 := by
  have ⟨n, m₁, s, hs⟩ := steps_run ctx m
  have := hp _ (s.preserves hp h)
  rwa [hs] at this

end PdfGraphics.Charstring.Machine
