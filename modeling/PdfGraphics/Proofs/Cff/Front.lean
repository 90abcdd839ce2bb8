import PdfGraphics.Cff.Operand
/-!
The front that a reader takes.

What a reader returns depends on the bytes that it takes and on no byte after them.
-/

namespace PdfGraphics

namespace Bytes

variable {bytes rest : List UInt8} {width n : Nat}

theorem take?_front {front : List UInt8} (h : take? n bytes = some (front, rest)) :
    bytes = front ++ rest ∧ ∀ z, take? n (front ++ z) = some (front, z) :=
  have ⟨hl, he⟩ := take?_eq_some.mp h
  ⟨he, fun _ => take?_eq_some.mpr ⟨hl, rfl⟩⟩

theorem skip?_front (h : skip? n bytes = some rest) :
    ∃ front, bytes = front ++ rest ∧ ∀ z, skip? n (front ++ z) = some z := by
  induction n generalizing bytes with
  | zero =>
    cases h
    exact ⟨[], rfl, fun _ => rfl⟩
  | succ n ih =>
    cases bytes with
    | nil         => simp [skip?] at h
    | cons b tail =>
      have ⟨front, he, hz⟩ := ih h
      exact ⟨b :: front, by simp [he], hz⟩

theorem number?_front (h : number? width bytes = some (n, rest)) :
    ∃ front, bytes = front ++ rest ∧ ∀ z, number? width (front ++ z) = some (n, z) := by
  simp only [number?, Option.map_eq_some_iff] at h
  obtain ⟨⟨front, rest'⟩, ht, he⟩ := h
  cases he
  obtain ⟨hb, hz⟩ := take?_front ht
  exact ⟨front, hb, fun z => by simp [number?, hz z]⟩

theorem signed?_front {i : Int} (h : signed? width bytes = some (i, rest)) :
    ∃ front, bytes = front ++ rest ∧ ∀ z, signed? width (front ++ z) = some (i, z) := by
  simp only [signed?, Option.map_eq_some_iff] at h
  obtain ⟨⟨n, rest'⟩, hn, he⟩ := h
  cases he
  obtain ⟨front, hb, hz⟩ := number?_front hn
  exact ⟨front, hb, fun z => by simp [signed?, hz z]⟩

end Bytes

namespace Cff

variable {bytes rest : List UInt8}

theorem PackedReal.nibbles_front {budget : Nat} {ns : List Nat}
    (h : nibbles budget bytes = .ok (ns, rest)) :
    ∃ front, bytes = front ++ rest ∧ ∀ z, nibbles budget (front ++ z) = .ok (ns, z) := by
  induction budget generalizing bytes ns with
  | zero => simp [nibbles] at h
  | succ budget ih =>
    cases bytes with
    | nil => simp [nibbles] at h
    | cons b tail =>
      simp only [nibbles] at h
      split at h
      case isTrue hi =>
        cases h
        exact ⟨[b], rfl, fun z => by simp [nibbles, hi]⟩
      case isFalse hi =>
        split at h
        case isTrue lo =>
          cases h
          exact ⟨[b], rfl, fun z => by simp [nibbles, hi, lo]⟩
        case isFalse lo =>
          obtain ⟨⟨ns', rest'⟩, hn, he⟩ := map_eq_ok.mp h
          cases he
          obtain ⟨front, hb, hz⟩ := ih hn
          exact ⟨b :: front, by simp [hb], fun z => by simp [nibbles, hi, lo, hz z, Except.map]⟩

theorem PackedReal.read_front {x : Float} (h : read bytes = .ok (x, rest)) :
    ∃ front, bytes = front ++ rest ∧ ∀ z, read (front ++ z) = .ok (x, z) := by
  simp only [read, bind, Except.bind] at h
  split at h
  case h_1 => simp at h
  case h_2 found hn =>
    split at h
    case h_1 => simp at h
    case h_2 y hy =>
      cases h
      obtain ⟨front, hb, hz⟩ := nibbles_front hn
      refine ⟨front, hb, fun z => ?_⟩
      simp only [read, bind, Except.bind, hz z]
      rw [hy]
      rfl

namespace Operand

variable {v : Operand}

-- Turns what is known of a part of an operand into the same of the operand.
theorem map_need_front {α : Type} {part : List UInt8 → Option (α × List UInt8)} {f : α → Operand}
    (hp : ∀ {a rest}, part bytes = some (a, rest) →
      ∃ front, bytes = front ++ rest ∧ ∀ z, part (front ++ z) = some (a, z))
    (h : (need (part bytes) DecodeError.unexpectedEof).map (fun (a, rest) => (f a, rest)) = .ok (v, rest)) :
    ∃ front, bytes = front ++ rest ∧ ∀ z,
      (need (part (front ++ z)) DecodeError.unexpectedEof).map (fun (a, rest) => (f a, rest)) =
        .ok (v, z) := by
  have ⟨⟨a, rest'⟩, ha, he⟩ := map_eq_ok.mp h
  cases he
  have ⟨front, hb, hz⟩ := hp (need_eq_ok.mp ha)
  exact ⟨front, hb, fun z => map_eq_ok.mpr ⟨_, need_eq_ok.mpr (hz z), rfl⟩⟩

theorem readForm_front {form : Form} (h : readForm form bytes = .ok (v, rest)) :
    ∃ front, bytes = front ++ rest ∧ ∀ z, readForm form (front ++ z) = .ok (v, z) := by
  cases form with
  | one n         =>
    cases h
    exact ⟨[], rfl, fun _ => rfl⟩
  | two base sign =>
    exact map_need_front (f := fun (b : Nat) => .integer (base + sign * b)) Bytes.number?_front h
  | word width    => exact map_need_front Bytes.signed?_front h
  | fixed         => exact map_need_front Bytes.signed?_front h
  | real          =>
    have ⟨⟨x, rest'⟩, hx, he⟩ := map_eq_ok.mp h
    cases he
    have ⟨front, hb, hz⟩ := PackedReal.read_front hx
    exact ⟨front, hb, fun z => map_eq_ok.mpr ⟨_, hz z, rfl⟩⟩

theorem readFrom_front {context : Context} {b : UInt8}
    (h : readFrom context b bytes = .ok (v, rest)) :
    ∃ front, bytes = front ++ rest ∧ ∀ z, readFrom context b (front ++ z) = .ok (v, z) := by
  simp only [readFrom] at h ⊢
  split at h
  case h_1 => exact readForm_front h
  case h_2 => simp at h

end Operand

end Cff

end PdfGraphics
