import PdfGraphics.Proofs.Bytes.Number
import PdfGraphics.Proofs.Cff.Front
/-!
How numbers are spelled in DICT data.

The grammar says which bytes spell which number, without a word on how they are read. Reading takes
a spelling off the front of its bytes, and it succeeds on nothing else.
-/

namespace PdfGraphics.Cff

namespace PackedReal

-- The nibbles of bytes, the high one of each byte first.
def nibblesOf (bytes : List UInt8) : List Nat :=
  bytes.flatMap fun b => [b.toNat / 16, b.toNat % 16]

-- The first nibble 15 is in the last of at most 32 bytes, and the nibbles before it are a number.
inductive Spells (bytes : List UInt8) (x : Float) : Prop
  | intro {ns padding : List Nat}
    (nibbles : nibblesOf bytes = ns ++ 15 :: padding) (first : 15 ∉ ns)
    (last : padding.length ≤ 1) (short : bytes.length ≤ maxBytes)
    (value : parse? (ns.flatMap marks) = some x)

variable {bytes rest front : List UInt8} {budget : Nat} {ns padding : List Nat} {x : Float}

@[simp] theorem nibblesOf_cons (b : UInt8) (bytes : List UInt8) :
    nibblesOf (b :: bytes) = b.toNat / 16 :: b.toNat % 16 :: nibblesOf bytes :=
  rfl

theorem eq_nil_of_nibblesOf (h : (nibblesOf bytes).length ≤ 1) : bytes = [] := by
  cases bytes with
  | nil => rfl
  | cons => simp at h

theorem nibbles_ok (h : nibbles budget bytes = .ok (ns, rest)) :
    ∃ front padding, bytes = front ++ rest ∧ nibblesOf front = ns ++ 15 :: padding ∧ 15 ∉ ns ∧
      padding.length ≤ 1 ∧ front.length ≤ budget := by
  induction budget generalizing bytes ns with
  | zero           => cases h
  | succ budget ih =>
    cases bytes with
    | nil         => cases h
    | cons b tail =>
      simp only [nibbles] at h
      split at h
      case isTrue hi =>
        cases h
        exact ⟨[b], [b.toNat % 16], rfl, by simp [nibblesOf, hi], List.not_mem_nil, by simp,
          by simp⟩
      case isFalse hi =>
        split at h
        case isTrue lo =>
          cases h
          exact ⟨[b], [], rfl, by simp [nibblesOf, lo], by simp [Ne.symm hi], by simp, by simp⟩
        case isFalse lo =>
          obtain ⟨⟨ns', rest'⟩, hn, he⟩ := map_eq_ok.mp h
          cases he
          obtain ⟨front, padding, hb, hs, hf, hp, hl⟩ := ih hn
          exact ⟨b :: front, padding, by simp [hb], by simp [hs],
            by simp [hf, Ne.symm hi, Ne.symm lo], hp, by simpa using hl⟩

theorem nibbles_of_spelled (hs : nibblesOf front = ns ++ 15 :: padding) (hf : 15 ∉ ns)
    (hp : padding.length ≤ 1) (hl : front.length ≤ budget) (rest : List UInt8) :
    nibbles budget (front ++ rest) = .ok (ns, rest) := by
  induction front generalizing budget ns with
  | nil            => simp [nibblesOf] at hs
  | cons b tail ih =>
    obtain ⟨budget', rfl⟩ : ∃ budget', budget = budget' + 1 :=
      Nat.exists_eq_succ_of_ne_zero (by simp at hl; omega)
    rw [nibblesOf_cons] at hs
    rw [List.cons_append, nibbles]
    -- The end is in the high nibble of this byte, in its low nibble, or in a later byte.
    cases ns with
    | nil       =>
      obtain ⟨hi, hs⟩ := List.cons_eq_cons.mp hs
      have hn := congrArg List.length hs
      rw [List.length_cons] at hn
      have ht : tail = [] := eq_nil_of_nibblesOf (by omega)
      simp [hi, ht]
    | cons n ns =>
      cases ns with
      | nil        =>
        obtain ⟨hi, hs⟩ := List.cons_eq_cons.mp hs
        obtain ⟨lo, hs⟩ := List.cons_eq_cons.mp hs
        have ht : tail = [] := eq_nil_of_nibblesOf (by rwa [hs])
        have hf : n ≠ 15 := fun he => hf (by simp [he])
        simp [hi, lo, hf, ht]
      | cons n' ns =>
        obtain ⟨hi, hs⟩ := List.cons_eq_cons.mp hs
        obtain ⟨lo, hs⟩ := List.cons_eq_cons.mp hs
        obtain ⟨hn, hn', hf⟩ : n ≠ 15 ∧ n' ≠ 15 ∧ 15 ∉ ns := by simpa [eq_comm] using hf
        have hr := ih hs hf (Nat.le_of_succ_le_succ hl)
        simp [hi, lo, hn, hn', hr, Except.map]

theorem length_nibblesOf (bytes : List UInt8) : (nibblesOf bytes).length = 2 * bytes.length := by
  induction bytes with
  | nil             => rfl
  | cons b bytes ih => simp [ih, Nat.mul_succ]

theorem nibblesOf_take (bytes : List UInt8) (i : Nat) :
    nibblesOf (bytes.take i) = (nibblesOf bytes).take (2 * i) := by
  induction bytes generalizing i with
  | nil             => simp [nibblesOf]
  | cons b bytes ih =>
    cases i with
    | zero   => rfl
    | succ i => simp [ih, Nat.mul_succ]

-- Without an end nibble in the bytes that may be looked at, it is the number of bytes that decides.
theorem nibbles_of_not_mem (h : 15 ∉ nibblesOf (bytes.take budget)) :
    nibbles budget bytes =
      .error (if bytes.length < budget then .unexpectedEof else .invalidOperandEncoding 30) := by
  induction budget generalizing bytes with
  | zero           => rfl
  | succ budget ih =>
    cases bytes with
    | nil         => simp [nibbles]
    | cons b tail =>
      obtain ⟨hi, lo, ht⟩ : ¬b.toNat / 16 = 15 ∧ ¬b.toNat % 16 = 15 ∧
          15 ∉ nibblesOf (tail.take budget) := by
        simpa [eq_comm] using h
      simp only [nibbles, hi, lo, if_false, ih ht, Except.map, List.length_cons,
        Nat.add_lt_add_iff_right]

theorem error_of_nibbles {e : DecodeError} (h : nibbles budget bytes = .error e) :
    e = .unexpectedEof ∨ e = .invalidOperandEncoding 30 := by
  induction budget generalizing bytes with
  | zero           =>
    cases h
    exact .inr rfl
  | succ budget ih =>
    cases bytes with
    | nil         =>
      cases h
      exact .inl rfl
    | cons b tail =>
      simp only [nibbles] at h
      split at h
      case isTrue => cases h
      case isFalse =>
        split at h
        case isTrue  => cases h
        case isFalse => exact ih (map_eq_error.mp h)

theorem read_eq_ok :
    read bytes = .ok (x, rest) ↔ ∃ front, bytes = front ++ rest ∧ Spells front x := by
  constructor
  · intro h
    simp only [read, bind, Except.bind] at h
    split at h
    case h_1 => cases h
    case h_2 found hn =>
      split at h
      case h_1 => cases h
      case h_2 y hy =>
        cases h
        obtain ⟨front, padding, hb, hs, hf, hp, hl⟩ := nibbles_ok hn
        exact ⟨front, hb, .intro hs hf hp hl (need_eq_ok.mp hy)⟩
  · rintro ⟨front, hb, ⟨hs, hf, hp, hl, hv⟩⟩
    have hn := nibbles_of_spelled hs hf hp hl rest
    rw [← hb] at hn
    simp only [read, bind, Except.bind, hn, hv, need, Option.elim, pure, Except.pure]

theorem error_of_read {e : DecodeError} (h : read bytes = .error e) :
    e = .unexpectedEof ∨ e = .invalidOperandEncoding 30 := by
  simp only [read, bind, Except.bind] at h
  split at h
  case h_1 e' hn =>
    cases h
    exact error_of_nibbles hn
  case h_2 found hn =>
    split at h
    case h_1 e' hp =>
      cases h
      exact .inr (need_eq_error.mp hp).right.symm
    case h_2 => cases h

end PackedReal

namespace Operand

-- The bytes of an operand, as far as they are legal in a DICT.
inductive Spells : List UInt8 → Operand → Prop
  | small {b : UInt8} (lo : 32 ≤ b) (hi : b ≤ 246) : Spells [b] (.integer (b.toNat - 139))
  | positive {b b₁ : UInt8} (lo : 247 ≤ b) (hi : b ≤ 250) :
    Spells [b, b₁] (.integer ((b.toNat - 247) * 256 + b₁.toNat + 108))
  | negative {b b₁ : UInt8} (lo : 251 ≤ b) (hi : b ≤ 254) :
    Spells [b, b₁] (.integer (-(b.toNat - 251) * 256 - b₁.toNat - 108))
  | short {bytes : List UInt8} (two : bytes.length = 2) :
    Spells (28 :: bytes) (.integer (Int.bmod (Bytes.value bytes) (2 ^ 16)))
  | long {bytes : List UInt8} (four : bytes.length = 4) :
    Spells (29 :: bytes) (.integer (Int.bmod (Bytes.value bytes) (2 ^ 32)))
  | real {bytes : List UInt8} {x : Float} (packed : PackedReal.Spells bytes x) :
    Spells (30 :: bytes) (.real x)

variable {b : UInt8} {bytes rest : List UInt8} {v : Operand}

-- The forms that first bytes announce in a DICT.
theorem form?_dict_eq_some {form : Form} :
    form? .dict b = some form ↔
      (32 ≤ b ∧ b ≤ 246) ∧ form = .one (b.toNat - 139) ∨
      (247 ≤ b ∧ b ≤ 250) ∧ form = .two ((b.toNat - 247) * 256 + 108) 1 ∨
      (251 ≤ b ∧ b ≤ 254) ∧ form = .two (-(b.toNat - 251) * 256 - 108) (-1) ∨
      b = 28 ∧ form = .word 2 ∨ b = 29 ∧ form = .word 4 ∨ b = 30 ∧ form = .real := by
  simp only [form?]
  split
  case isTrue h => subst h; simp [eq_comm]
  case isFalse => grind

theorem readForm_two {base sign : Int} :
    readForm (.two base sign) bytes = .ok (v, rest) ↔
      ∃ b₁, bytes = b₁ :: rest ∧ v = .integer (base + sign * b₁.toNat) := by
  rw [readForm, Bytes.number?_eq]
  cases bytes with
  | nil           => simp [need, Except.map]
  | cons b₁ bytes =>
    have hn : Bytes.numberAt (b₁ :: bytes) 0 1 = b₁.toNat := by simp [Bytes.numberAt, Bytes.value]
    simp only [List.length_cons, Nat.le_add_left, if_true, need, Option.elim, Except.map, hn]
    grind

theorem readForm_word {width : Nat} :
    readForm (.word width) bytes = .ok (v, rest) ↔
      ∃ front, bytes = front ++ rest ∧ front.length = width ∧
        v = .integer (Int.bmod (Bytes.value front) (256 ^ width)) := by
  simp only [readForm, map_eq_ok, need_eq_ok, Bytes.signed?, Bytes.number?, Option.map_eq_some_iff,
    Prod.exists, Bytes.take?_eq_some, Nat.pow_eq]
  grind

theorem readForm_real :
    readForm .real bytes = .ok (v, rest) ↔
      ∃ front x, bytes = front ++ rest ∧ PackedReal.Spells front x ∧ v = .real x := by
  simp only [readForm, map_eq_ok, Prod.exists, PackedReal.read_eq_ok]
  grind

theorem readFrom_of_form? {context : Context} {form : Form} (h : form? context b = some form)
    (bytes : List UInt8) : readFrom context b bytes = readForm form bytes := by
  simp only [readFrom, h]

-- Reading takes a spelling off the front.
theorem readFrom_dict_eq_ok :
    readFrom .dict b bytes = .ok (v, rest) ↔
      ∃ front, bytes = front ++ rest ∧ Spells (b :: front) v := by
  constructor
  · intro h
    cases hf : form? .dict b with
    | none      => simp [readFrom, hf] at h
    | some form =>
      rw [readFrom_of_form? hf] at h
      rcases form?_dict_eq_some.mp hf with
        ⟨hb, rfl⟩ | ⟨hb, rfl⟩ | ⟨hb, rfl⟩ | ⟨rfl, rfl⟩ | ⟨rfl, rfl⟩ | ⟨rfl, rfl⟩
      · cases h
        exact ⟨[], rfl, .small hb.left hb.right⟩
      · obtain ⟨b₁, hr, hv⟩ := readForm_two.mp h
        refine ⟨[b₁], hr, ?_⟩
        rw [hv, show ((b.toNat : Int) - 247) * 256 + 108 + 1 * b₁.toNat =
          (b.toNat - 247) * 256 + b₁.toNat + 108 by omega]
        exact .positive hb.left hb.right
      · obtain ⟨b₁, hr, hv⟩ := readForm_two.mp h
        refine ⟨[b₁], hr, ?_⟩
        rw [hv, show -((b.toNat : Int) - 251) * 256 - 108 + -1 * b₁.toNat =
          -(b.toNat - 251) * 256 - b₁.toNat - 108 by omega]
        exact .negative hb.left hb.right
      · obtain ⟨front, hr, hl, hv⟩ := readForm_word.mp h
        exact ⟨front, hr, hv ▸ .short hl⟩
      · obtain ⟨front, hr, hl, hv⟩ := readForm_word.mp h
        exact ⟨front, hr, hv ▸ .long hl⟩
      · obtain ⟨front, x, hr, hp, hv⟩ := readForm_real.mp h
        exact ⟨front, hr, hv ▸ .real hp⟩
  · rintro ⟨front, hr, hs⟩
    subst hr
    cases hs with
    | small lo hi    =>
      rw [readFrom_of_form? (form?_dict_eq_some.mpr (.inl ⟨⟨lo, hi⟩, rfl⟩))]
      rfl
    | positive lo hi =>
      rw [readFrom_of_form? (form?_dict_eq_some.mpr (.inr (.inl ⟨⟨lo, hi⟩, rfl⟩)))]
      exact readForm_two.mpr ⟨_, rfl, congrArg integer (by omega)⟩
    | negative lo hi =>
      rw [readFrom_of_form? (form?_dict_eq_some.mpr (.inr (.inr (.inl ⟨⟨lo, hi⟩, rfl⟩))))]
      exact readForm_two.mpr ⟨_, rfl, congrArg integer (by omega)⟩
    | short two      => exact readForm_word.mpr ⟨front, rfl, two, rfl⟩
    | long four      => exact readForm_word.mpr ⟨front, rfl, four, rfl⟩
    | real packed    => exact readForm_real.mpr ⟨front, _, rfl, packed, rfl⟩

theorem error_of_readForm {form : Form} {e : DecodeError} (h : readForm form bytes = .error e) :
    e = .unexpectedEof ∨ e = .invalidOperandEncoding 30 := by
  cases form with
  | one                => cases h
  | two | word | fixed => exact .inl (need_eq_error.mp (map_eq_error.mp h)).right.symm
  | real               => exact PackedReal.error_of_read (map_eq_error.mp h)

theorem error_of_readFrom {e : DecodeError} (h : readFrom .dict b bytes = .error e) :
    e = .unexpectedEof ∨ e = .invalidOperandEncoding 30 ∨
      form? .dict b = none ∧ e = .invalidOperandEncoding b := by
  simp only [readFrom] at h
  split at h
  case h_1    => exact (error_of_readForm h).imp_right .inl
  case h_2 hf =>
    cases h
    exact .inr (.inr ⟨hf, rfl⟩)

end Operand

end PdfGraphics.Cff
