import PdfGraphics.Cff.Dict
import PdfGraphics.Proofs.Cff.Operand.Spelling
/-!
The grammar of DICT data.

A DICT is a sequence of entries, and an entry is an operator behind its operands. Reading accepts
what the grammar spells and nothing else, and the last entry of an operator counts.
-/

namespace PdfGraphics.Cff.Dict

-- The bytes of an operand or of an operator.
inductive Token.Spells : List UInt8 → Token → Prop
  | operand {bytes : List UInt8} {v : Operand} (spells : Operand.Spells bytes v) :
    Spells bytes (.operand v)
  | operator {b : UInt8} (hi : b ≤ 21) (unescaped : b ≠ 12) : Spells [b] (.operator b.toNat)
  | escaped {b : UInt8} : Spells [12, b] (.operator (1200 + b.toNat))

inductive Operands : List UInt8 → List Operand → Prop
  | nil : Operands [] []
  | cons {front bytes : List UInt8} {v : Operand} {vs : List Operand} :
    (Operand.Spells front v) → (Operands bytes vs) → Operands (front ++ bytes) (v :: vs)

-- The bytes of entries, each of them given by its operator and its operands.
inductive Spells : List UInt8 → List (Nat × List Operand) → Prop
  | nil : Spells [] []
  | entry {front op bytes : List UInt8} {vs : List Operand} {o : Nat}
      {es : List (Nat × List Operand)} (operands : Operands front vs) (few : vs.length ≤ 48)
      (operator : Token.Spells op (.operator o)) (rest : Spells bytes es) :
    Spells (front ++ op ++ bytes) ((o, vs) :: es)

variable {d d' : Dict} {b : UInt8} {bytes front rest : List UInt8} {t : Token}
  {pending vs vs' : List Operand} {o : Nat} {es : List (Nat × List Operand)} {e : DecodeError}

/-! Tokens. -/

theorem operand_first {v : Operand} (h : Operand.Spells (b :: front) v) : 28 ≤ b ∧ b ≠ 31 := by
  cases h <;> grind

theorem Token.read_operand {v : Operand} (h : Operand.Spells (b :: front) v) (rest : List UInt8) :
    Token.read b (front ++ rest) = .ok (.operand v, rest) := by
  have ⟨hb, hr⟩ := operand_first h
  have ho : Operand.readFrom .dict b (front ++ rest) = .ok (v, rest) :=
    Operand.readFrom_dict_eq_ok.mpr ⟨front, rfl, h⟩
  simp only [Token.read, ho]
  rw [if_neg (by grind), if_neg (by grind), if_neg (by grind)]

theorem Token.read_eq_ok :
    Token.read b bytes = .ok (t, rest) ↔
      ∃ front, bytes = front ++ rest ∧ Token.Spells (b :: front) t := by
  constructor
  · intro h
    simp only [Token.read] at h
    split at h
    case isTrue hb =>
      subst hb
      split at h
      case h_1 => cases h
      case h_2 b₁ bytes =>
        cases h
        exact ⟨[b₁], rfl, .escaped⟩
    case isFalse hb =>
      split at h
      case isTrue hi =>
        cases h
        exact ⟨[], rfl, .operator hi hb⟩
      case isFalse =>
        split at h
        case isTrue => cases h
        case isFalse =>
          split at h
          case h_1 v rest' hr =>
            cases h
            obtain ⟨front, hf, hs⟩ := Operand.readFrom_dict_eq_ok.mp hr
            exact ⟨front, hf, .operand hs⟩
          case h_2 => cases h
  · rintro ⟨front, hf, h⟩
    cases h with
    | operand hs     => exact hf ▸ read_operand hs rest
    | operator hi hb =>
      simp only [hf, Token.read, hb, hi, if_false, if_true, List.nil_append]
    | escaped        =>
      rw [hf]
      rfl

theorem Token.Spells.read (h : Token.Spells front t) (rest : List UInt8) :
    ∃ b tail, front = b :: tail ∧ Token.read b (tail ++ rest) = .ok (t, rest) := by
  have ⟨b, tail, hf⟩ : ∃ b tail, front = b :: tail := by
    cases h with
    | operand hs => cases hs <;> exact ⟨_, _, rfl⟩
    | operator   => exact ⟨_, _, rfl⟩
    | escaped    => exact ⟨_, _, rfl⟩
  exact ⟨b, tail, hf, Token.read_eq_ok.mpr ⟨tail, rfl, hf ▸ h⟩⟩

-- An operand that fails says which byte is at fault, unless its bytes run out.
theorem Token.error_of_read (h : Token.read b bytes = .error e) :
    e = .malformedDict ∨ e = .invalidOperandEncoding 255 ∨ e = .invalidOperandEncoding 30 := by
  simp only [Token.read] at h
  split at h
  case isTrue =>
    split at h <;> cases h
    exact .inl rfl
  case isFalse =>
    split at h
    case isTrue => cases h
    case isFalse hi =>
      split at h
      case isTrue =>
        cases h
        exact .inl rfl
      case isFalse hb =>
        split at h
        case h_1 => cases h
        case h_2 e' hr =>
          cases h
          rcases Operand.error_of_readFrom hr with he | he | ⟨hf, he⟩
          · exact .inl (by rw [he]; rfl)
          · exact .inr (.inr (by rw [he]; rfl))
          · have hb : b = 255 := by
              simp only [Operand.form?] at hf
              grind
            exact .inr (.inl (by rw [he, hb]; rfl))

/-! The entries that are read. -/

theorem Operands.append_singleton {v : Operand} (h : Operands front vs)
    (hv : Operand.Spells bytes v) : Operands (front ++ bytes) (vs ++ [v]) := by
  induction h with
  | nil => simpa using Operands.cons hv .nil
  | cons hs _ ih =>
    rw [List.append_assoc]
    exact .cons hs ih

end PdfGraphics.Cff.Dict
