import PdfGraphics.Charstring.Machine
import PdfGraphics.Proofs.Bytes.Number
/-!
The bytes of a token.

The first byte of an operand or of an operator tells how many more are read. What they say does not
depend on the bytes after them.
-/

namespace PdfGraphics

theorem Bytes.skip?_eq (n : Nat) (bytes : List UInt8) :
    skip? n bytes = if n ≤ bytes.length then some (bytes.drop n) else none := by
  induction n generalizing bytes with
  | zero      => rfl
  | succ n ih =>
    cases bytes with
    | nil         => rfl
    | cons b tail => simp [skip?, ih]

namespace Charstring

-- How many bytes an operand has after the byte `b`.
def operandTail (b : UInt8) : Nat :=
  if b = 28 then 2 else if b ≤ 246 then 0 else if b ≤ 254 then 1 else 4

-- How many bytes an operator has after the byte `b`.
def operatorTail (b : UInt8) : Nat :=
  if b = escapeByte then 1 else 0

-- What is read depends on the next `tail` bytes, and on whether there are as many.
def ReadsTail {α : Type} (read : List UInt8 → Option (α × List UInt8)) (tail : Nat) : Prop :=
  ∃ f : List UInt8 → α, ∀ bytes,
    read bytes = if tail ≤ bytes.length then some (f (bytes.take tail), bytes.drop tail) else none

namespace ReadsTail

variable {α β : Type} {read : List UInt8 → Option (α × List UInt8)} {tail : Nat}

theorem map (h : ReadsTail read tail) (g : α → β) :
    ReadsTail (fun bytes => (read bytes).map fun (a, rest) => (g a, rest)) tail := by
  have ⟨f, h⟩ := h
  refine ⟨fun bytes => g (f bytes), fun bytes => ?_⟩
  simp only [h]
  split <;> rfl

theorem number? (width : Nat) : ReadsTail (Bytes.number? width) width :=
  ⟨Bytes.value, fun bytes => Bytes.number?_eq width bytes⟩

theorem signed? (width : Nat) : ReadsTail (Bytes.signed? width) width :=
  (number? width).map fun (n : Nat) => Int.bmod n (Nat.pow 256 width)

theorem operator (b : UInt8) : ReadsTail (Operator.number? b) (operatorTail b) := by
  by_cases hb : b = escapeByte
  case pos =>
    refine ⟨fun bytes => 1200 + (bytes.headD 0).toNat, fun bytes => ?_⟩
    cases bytes <;> simp [Operator.number?, operatorTail, hb]
  case neg => exact ⟨fun _ => b.toNat, fun bytes => by simp [Operator.number?, operatorTail, hb]⟩

end ReadsTail

-- How many bytes an operand has after the first one, if it is of this form and not a real.
def formTail : Cff.Operand.Form → Nat
  | .one _ | .real => 0
  | .two _ _ => 1
  | .word width => width
  | .fixed => 4

theorem form?_charstring {b : UInt8} (hb : isOperand b = true) :
    ∃ form, Cff.Operand.form? .charstring b = some form ∧ form ≠ .real ∧
      formTail form = operandTail b := by
  have hb : b = 28 ∨ 32 ≤ b.toNat := by simpa [isOperand, UInt8.le_iff_toNat_le] using hb
  have hlt := b.toNat_lt
  by_cases h₂₈ : b = 28
  case pos =>
    exact ⟨.word 2, by simp [Cff.Operand.form?, h₂₈], nofun, by simp [formTail, operandTail, h₂₈]⟩
  case neg =>
    have h₃₂ := hb.resolve_left h₂₈
    simp only [Cff.Operand.form?, operandTail, h₂₈, if_false, UInt8.le_iff_toNat_le,
      UInt8.reduceToNat]
    split
    case isTrue h₁ => exact ⟨_, rfl, nofun, by rw [if_pos h₁.right, formTail]⟩
    case isFalse h₁ =>
      rw [if_neg (show ¬b.toNat ≤ 246 by omega)]
      split
      case isTrue h₂ => exact ⟨_, rfl, nofun, by rw [if_pos (by omega), formTail]⟩
      case isFalse h₂ =>
        split
        case isTrue h₃ => exact ⟨_, rfl, nofun, by rw [if_pos h₃.right, formTail]⟩
        case isFalse h₃ =>
          have h₂₅₅ : b = 255 := UInt8.toNat_inj.mp (show b.toNat = 255 by omega)
          exact ⟨.fixed, by rw [if_pos h₂₅₅], nofun, by rw [if_neg (by omega), formTail]⟩

-- What is made of a part that is read, and that must not be cut short.
theorem ReadsTail.exists_need {α : Type} {part : List UInt8 → Option (α × List UInt8)} {tail : Nat}
    (h : ReadsTail part tail) (g : α → Cff.Operand) :
    ∃ read, ReadsTail read tail ∧ ∀ bytes,
      (need (part bytes) DecodeError.unexpectedEof).map (fun (a, rest) => (g a, rest)) =
        need (read bytes) .unexpectedEof :=
  ⟨_, h.map g, fun bytes => by cases part bytes <;> rfl⟩

theorem exists_readForm {form : Cff.Operand.Form} (hf : form ≠ .real) :
    ∃ read, ReadsTail read (formTail form) ∧ ∀ bytes,
      Cff.Operand.readForm form bytes = need (read bytes) .unexpectedEof := by
  cases form with
  | one n         =>
    exact ⟨fun bytes => some (.integer n, bytes), ⟨fun _ => .integer n, fun _ => rfl⟩, fun _ => rfl⟩
  | two base sign =>
    exact (ReadsTail.number? 1).exists_need fun (b : Nat) => .integer (base + sign * b)
  | word width    => exact (ReadsTail.signed? width).exists_need .integer
  | fixed         => exact (ReadsTail.signed? 4).exists_need .fixed
  | real          => exact absurd rfl hf

-- An operand cannot be read wrongly, only be cut short.
theorem exists_readFrom {b : UInt8} (hb : isOperand b = true) :
    ∃ read, ReadsTail read (operandTail b) ∧ ∀ bytes,
      Cff.Operand.readFrom .charstring b bytes = need (read bytes) .unexpectedEof := by
  have ⟨form, hf, hr, ht⟩ := form?_charstring hb
  have ⟨read, hread, he⟩ := exists_readForm hr
  exact ⟨read, ht ▸ hread, fun bytes => by simp only [Cff.Operand.readFrom, hf, he]⟩

end Charstring

end PdfGraphics
