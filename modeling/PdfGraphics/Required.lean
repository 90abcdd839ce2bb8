/-!
Answers that must be there.
-/

namespace PdfGraphics

-- The answer, or the error to report where there is none.
def need {ε α : Type} (answer : Option α) (e : ε) : Except ε α :=
  answer.elim (.error e) .ok

theorem need_eq_ok {ε α : Type} {answer : Option α} {e : ε} {a : α} :
    need answer e = .ok a ↔ answer = some a := by
  cases answer <;> simp [need]

theorem map_eq_ok {ε α β : Type} {x : Except ε α} {f : α → β} {b : β} :
    x.map f = .ok b ↔ ∃ a, x = .ok a ∧ f a = b := by
  cases x <;> simp [Except.map]

-- An answer that is there and has some property, when both can be computed.
theorem exists_of_map_decide {ε α : Type} {x : Except ε α} {p : α → Prop} [DecidablePred p]
    (h : x.map (fun a => decide (p a)) = .ok true) : ∃ a, x = .ok a ∧ p a := by
  have ⟨a, hx, hp⟩ := map_eq_ok.mp h
  exact ⟨a, hx, of_decide_eq_true hp⟩

theorem need_eq_error {ε α : Type} {answer : Option α} {e e' : ε} :
    need answer e = .error e' ↔ answer = none ∧ e = e' := by
  cases answer <;> simp [need]

theorem map_eq_error {ε α β : Type} {x : Except ε α} {f : α → β} {e : ε} :
    x.map f = .error e ↔ x = .error e := by
  cases x <;> simp [Except.map]

theorem bind_eq_ok {ε α β : Type} {x : Except ε α} {f : α → Except ε β} {b : β} :
    (x >>= f) = .ok b ↔ ∃ a, x = .ok a ∧ f a = .ok b := by
  cases x <;> simp [bind, Except.bind]

theorem bind_congr_ok {ε α β : Type} {x : Except ε α} {f g : α → Except ε β}
    (h : ∀ a, x = .ok a → f a = g a) : (x >>= f) = (x >>= g) := by
  cases x with
  | error _ => rfl
  | ok a    => exact h a rfl

-- Answers that are all there.
theorem mapM_eq_ok {ε α β : Type} {f : α → Except ε β} {as : List α} {bs : List β} :
    as.mapM f = .ok bs ↔ as.map f = bs.map .ok := by
  induction as generalizing bs with
  | nil          => cases bs <;> simp [pure, Except.pure]
  | cons a as ih =>
    rw [List.mapM_cons, bind_eq_ok]
    simp only [bind_eq_ok, ih, pure, Except.pure, Except.ok.injEq]
    constructor
    case mp =>
      rintro ⟨b, hb, bs, hbs, rfl⟩
      rw [List.map_cons, List.map_cons, hb, hbs]
    case mpr =>
      intro h
      cases bs with
      | nil       => cases h
      | cons b bs =>
        have ⟨hb, hbs⟩ := List.cons.inj h
        exact ⟨b, hb, bs, hbs, rfl⟩

theorem exists_mapM_eq_ok {ε α β : Type} {f : α → Except ε β} {as : List α}
    (h : ∀ a ∈ as, ∃ b, f a = .ok b) : ∃ bs, as.mapM f = .ok bs := by
  induction as with
  | nil          => exact ⟨[], rfl⟩
  | cons a as ih =>
    have ⟨⟨b, hb⟩, has⟩ := List.forall_mem_cons.mp h
    have ⟨bs, hbs⟩ := ih has
    exact ⟨b :: bs, mapM_eq_ok.mpr (by rw [List.map_cons, List.map_cons, hb, mapM_eq_ok.mp hbs])⟩

end PdfGraphics
