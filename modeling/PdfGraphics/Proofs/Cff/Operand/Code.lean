import PdfGraphics.Proofs.Cff.Operand.Spelling
import PdfGraphics.Proofs.Scalar.Binary64
/-!
Operands as a code.

No operand is the front of another: what is decoded depends on the bytes of the operand only, and
with one of them missing nothing is decoded. Every integer has an encoding in each form that is wide
enough for it, and all of them are decoded to the same number, without rounding.
-/

namespace PdfGraphics.Cff

-- The end nibble is in the last byte, so it is missing without that byte.
theorem PackedReal.read_take {front : List UInt8} {x : Float} {i : Nat} (h : Spells front x)
    (hi : i < front.length) : read (front.take i) = .error .unexpectedEof := by
  cases h with
  | @intro ns padding nibbles first last short =>
    have hlen := congrArg List.length nibbles
    rw [length_nibblesOf, List.length_append, List.length_cons] at hlen
    have htake : (front.take i).take maxBytes = front.take i := by
      rw [List.take_of_length_le]
      rw [List.length_take]
      omega
    have hm : 15 ∉ nibblesOf ((front.take i).take maxBytes) := by
      rw [htake, nibblesOf_take, nibbles, List.take_append_of_le_length (by omega)]
      exact fun hm => first (List.mem_of_mem_take hm)
    rw [read, nibbles_of_not_mem hm, if_pos (by rw [List.length_take]; omega)]
    rfl

namespace Operand

variable {context : Context} {b : UInt8} {bytes front rest : List UInt8} {form : Form} {v : Operand}
variable {n : Int} {i k : Nat}

theorem number?_eq_none {width : Nat} (h : bytes.length < width) :
    Bytes.number? width bytes = none := by
  rw [Bytes.number?_eq, if_neg (Nat.not_le.mpr h)]

theorem signed?_eq_none {width : Nat} (h : bytes.length < width) :
    Bytes.signed? width bytes = none := by
  rw [Bytes.signed?, number?_eq_none h, Option.map_none]

-- An operand that takes all of its bytes is cut short without the last of them.
theorem readForm_take (h : readForm form front = .ok (v, [])) (hi : i < front.length) :
    readForm form (front.take i) = .error .unexpectedEof := by
  have hlt {width : Nat} (hw : front.length = width + 0) : (front.take i).length < width := by
    rw [List.length_take]
    omega
  cases form with
  | one            =>
    cases h
    cases hi
  | two base sign  =>
    obtain ⟨⟨a, rest⟩, ha, he⟩ := map_eq_ok.mp h
    cases he
    have hw := Bytes.length_of_number? (need_eq_ok.mp ha)
    rw [readForm, number?_eq_none (hlt hw)]
    rfl
  | word | fixed   =>
    obtain ⟨⟨a, rest⟩, ha, he⟩ := map_eq_ok.mp h
    cases he
    have hw := Bytes.length_of_signed? (need_eq_ok.mp ha)
    rw [readForm, signed?_eq_none (hlt hw)]
    rfl
  | real           =>
    obtain ⟨front', x, hf, hx, -⟩ := readForm_real.mp h
    rw [List.append_nil] at hf
    rw [readForm, PackedReal.read_take (hf ▸ hx) hi]
    rfl

theorem readFrom_take (h : readFrom context b front = .ok (v, [])) (hi : i < front.length) :
    readFrom context b (front.take i) = .error .unexpectedEof := by
  cases hf : form? context b with
  | none      => simp [readFrom, hf] at h
  | some form =>
    rw [readFrom_of_form? hf] at h ⊢
    exact readForm_take h hi

-- What is decoded has a front of its own, which no other operand has as a front.
theorem decode_front (h : decode context bytes = .ok (v, k)) :
    (1 ≤ k ∧ k ≤ bytes.length) ∧
    (∀ rest, decode context (bytes.take k ++ rest) = .ok (v, k)) ∧
    ∀ i < k, decode context (bytes.take i) = .error .unexpectedEof := by
  cases bytes with
  | nil          => cases h
  | cons b bytes =>
    have ⟨⟨v, rest⟩, hr, he⟩ := map_eq_ok.mp h
    cases he
    have ⟨front, hb, hz⟩ := readFrom_front hr
    have hk : bytes.length + 1 - rest.length = front.length + 1 := by
      rw [hb, List.length_append]
      omega
    have htake : (b :: bytes).take (front.length + 1) = b :: front := by
      rw [List.take_succ_cons, hb, List.take_left]
    rw [hk, htake]
    refine ⟨⟨by omega, ?_⟩, fun z => ?_, fun i hi => ?_⟩
    case refine_1 =>
      rw [hb, List.length_cons, List.length_append]
      omega
    case refine_2 =>
      rw [List.cons_append, decode, hz z]
      exact congrArg Except.ok (congrArg (v, ·) (by rw [List.length_append]; omega))
    case refine_3 =>
      cases i with
      | zero   => rfl
      | succ i =>
        have hr := hz []
        rw [List.append_nil] at hr
        have hi := Nat.lt_of_succ_lt_succ hi
        rw [List.take_succ_cons, hb, List.take_append_of_le_length hi.le, decode,
          readFrom_take hr hi]
        rfl

-- The encodings of an integer. The last one is for DICT data only.
inductive Encodes : Context → Int → List UInt8 → Prop
  | one {context : Context} {n : Int} (lo : -107 ≤ n) (hi : n ≤ 107) :
    Encodes context n [UInt8.ofNat (n + 139).toNat]
  | positive {context : Context} {n : Int} (lo : 108 ≤ n) (hi : n ≤ 1131) :
    Encodes context n [UInt8.ofNat (247 + (n - 108).toNat / 256), UInt8.ofNat (n - 108).toNat]
  | negative {context : Context} {n : Int} (lo : -1131 ≤ n) (hi : n ≤ -108) :
    Encodes context n [UInt8.ofNat (251 + (-n - 108).toNat / 256), UInt8.ofNat (-n - 108).toNat]
  | short {context : Context} {n : Int} (lo : -2 ^ 15 ≤ n) (hi : n < 2 ^ 15) :
    Encodes context n (28 :: Bytes.spell 2 (n % 2 ^ 16).toNat)
  | long {n : Int} (lo : -2 ^ 31 ≤ n) (hi : n < 2 ^ 31) :
    Encodes .dict n (29 :: Bytes.spell 4 (n % 2 ^ 32).toNat)

section Form

-- The forms that are the same in DICT data and in charstrings.

theorem form?_one (lo : 32 ≤ b.toNat) (hi : b.toNat ≤ 246) :
    form? context b = some (.one (b.toNat - 139)) := by
  have hb : b ≠ 28 := by
    rintro rfl
    exact absurd lo (by decide)
  simp [form?, hb, UInt8.le_iff_toNat_le, lo, hi]

theorem form?_positive (lo : 247 ≤ b.toNat) (hi : b.toNat ≤ 250) :
    form? context b = some (.two ((b.toNat - 247) * 256 + 108) 1) := by
  have hb : b ≠ 28 := by
    rintro rfl
    exact absurd lo (by decide)
  have hlow : ¬b.toNat ≤ 246 := by omega
  simp [form?, hb, UInt8.le_iff_toNat_le, hlow, lo, hi]

theorem form?_negative (lo : 251 ≤ b.toNat) (hi : b.toNat ≤ 254) :
    form? context b = some (.two (-(b.toNat - 251) * 256 - 108) (-1)) := by
  have hb : b ≠ 28 := by
    rintro rfl
    exact absurd lo (by decide)
  have hlow : ¬b.toNat ≤ 246 := by omega
  have hmid : ¬b.toNat ≤ 250 := by omega
  simp [form?, hb, UInt8.le_iff_toNat_le, hlow, hmid, lo, hi]

end Form

theorem decode_of_form? (hf : form? context b = some form)
    (hr : readForm form bytes = .ok (v, [])) :
    decode context (b :: bytes) = .ok (v, bytes.length + 1) := by
  rw [decode, readFrom_of_form? hf, hr]
  rfl

-- Two's complement brings back the numbers of which the double fits.
theorem signed?_spell (width : Nat) (lo : -(256 ^ width : Nat) ≤ n * 2)
    (hi : n * 2 < (256 ^ width : Nat)) :
    Bytes.signed? width (Bytes.spell width (n % (256 ^ width : Nat)).toNat) = some (n, []) := by
  have hpos : (0 : Int) < (256 ^ width : Nat) := Int.natCast_pos.mpr (Nat.pow_pos (by decide))
  have hcast : ((n % (256 ^ width : Nat)).toNat : Int) = n % (256 ^ width : Nat) :=
    Int.toNat_of_nonneg (Int.emod_nonneg _ hpos.ne')
  have hlt : (n % (256 ^ width : Nat)).toNat < 256 ^ width := by
    have := Int.emod_lt_of_pos n hpos
    omega
  have hn := Bytes.number?_spell hlt []
  rw [List.append_nil] at hn
  have hb : Int.bmod (n % (256 ^ width : Nat)).toNat (Nat.pow 256 width) = n := by
    rw [hcast, Nat.pow_eq, Int.emod_bmod, Int.bmod_eq_of_le_mul_two lo hi]
  rw [Bytes.signed?, hn]
  exact congrArg (fun n => some (n, [])) hb

theorem readForm_word_spell (width : Nat) (lo : -(256 ^ width : Nat) ≤ n * 2)
    (hi : n * 2 < (256 ^ width : Nat)) :
    readForm (.word width) (Bytes.spell width (n % (256 ^ width : Nat)).toNat) =
      .ok (.integer n, []) := by
  rw [readForm, signed?_spell width lo hi]
  rfl

theorem readForm_fixed_spell (lo : -(256 ^ 4 : Nat) ≤ n * 2) (hi : n * 2 < (256 ^ 4 : Nat)) :
    readForm .fixed (Bytes.spell 4 (n % (256 ^ 4 : Nat)).toNat) = .ok (.fixed n, []) := by
  rw [readForm, signed?_spell 4 lo hi]
  rfl

theorem decode_of_encodes (h : Encodes context n bytes) :
    decode context bytes = .ok (.integer n, bytes.length) := by
  cases h with
  | one lo hi      =>
    have hb : (UInt8.ofNat (n + 139).toNat).toNat = (n + 139).toNat := by
      rw [UInt8.toNat_ofNat']
      omega
    refine decode_of_form? (form?_one (by omega) (by omega)) ?_
    exact congrArg (fun n => Except.ok (integer n, [])) (by omega)
  | positive lo hi =>
    have hb : (UInt8.ofNat (247 + (n - 108).toNat / 256)).toNat = 247 + (n - 108).toNat / 256 := by
      rw [UInt8.toNat_ofNat']
      omega
    refine decode_of_form? (form?_positive (by omega) (by omega)) (readForm_two.mpr ⟨_, rfl, ?_⟩)
    rw [hb, UInt8.toNat_ofNat']
    exact congrArg integer (by omega)
  | negative lo hi =>
    have hb : (UInt8.ofNat (251 + (-n - 108).toNat / 256)).toNat =
        251 + (-n - 108).toNat / 256 := by
      rw [UInt8.toNat_ofNat']
      omega
    refine decode_of_form? (form?_negative (by omega) (by omega)) (readForm_two.mpr ⟨_, rfl, ?_⟩)
    rw [hb, UInt8.toNat_ofNat']
    exact congrArg integer (by omega)
  | short lo hi    =>
    have hf : form? context 28 = some (.word 2) := rfl
    exact decode_of_form? hf (readForm_word_spell 2 (by omega) (by omega))
  | long lo hi     =>
    have hf : form? .dict 29 = some (.word 4) := rfl
    exact decode_of_form? hf (readForm_word_spell 4 (by omega) (by omega))

-- Bytes that begin no operand. All operators are among them.
def IsForeign (context : Context) (b : UInt8) : Prop :=
  b ≤ 27 ∨ b = 31 ∨ match context with
    | .dict => b = 255
    | .charstring => b = 29 ∨ b = 30

theorem form?_eq_none_iff : form? context b = none ↔ IsForeign context b := by
  have hlt := b.toNat_lt
  cases context <;>
    simp only [form?, IsForeign, ← UInt8.toNat_inj, UInt8.le_iff_toNat_le, UInt8.reduceToNat] <;>
    grind

theorem decode_of_isForeign (h : IsForeign context b) (rest : List UInt8) :
    decode context (b :: rest) = .error (.invalidOperandEncoding b) := by
  simp only [decode, readFrom, form?_eq_none_iff.mpr h]
  rfl

theorem natAbs_lt (h : Encodes context n bytes) : n.natAbs < 2 ^ 53 := by
  cases h <;> omega

-- What is decoded from the front of bytes does not depend on the rest, and nothing is decoded from
-- less of it. Every encoding of an integer stands for just that integer, and a fixed-point number
-- for its 65536ths. Other bytes are refused.
theorem decode_code (context : Context) :
    (∀ bytes v k, decode context bytes = .ok (v, k) → (1 ≤ k ∧ k ≤ bytes.length) ∧
      (∀ rest, decode context (bytes.take k ++ rest) = .ok (v, k)) ∧
      ∀ i < k, decode context (bytes.take i) = .error .unexpectedEof) ∧
    (∀ n bytes, Encodes context n bytes → decode context bytes = .ok (.integer n, bytes.length) ∧
      Binary64.value? (integer n).toBinary64 = some (n : ℚ)) ∧
    (∀ bits : Int, -2 ^ 31 ≤ bits → bits < 2 ^ 31 →
      decode .charstring (255 :: Bytes.spell 4 (bits % 2 ^ 32).toNat) = .ok (.fixed bits, 5) ∧
      Binary64.value? (fixed bits).toBinary64 = some (bits / 65536 : ℚ)) ∧
    ∀ b rest, IsForeign context b →
      decode context (b :: rest) = .error (.invalidOperandEncoding b) := by
  refine ⟨fun _ _ _ => decode_front, fun n bytes h => ?_, fun bits lo hi => ?_,
    fun _ rest h => decode_of_isForeign h rest⟩
  case refine_1 => exact ⟨decode_of_encodes h, Binary64.value?_ofInt (natAbs_lt h)⟩
  case refine_2 =>
    have hf : form? .charstring 255 = some .fixed := rfl
    exact ⟨decode_of_form? hf (readForm_fixed_spell (by omega) (by omega)),
      Binary64.value?_div_65536 (by omega)⟩

theorem decode_code_words :
    decode .dict [28, 0xd8, 0xf0] = .ok (.integer (-10000), 3) ∧
    decode .dict [28, 0xd8, 0xf0, 139] = .ok (.integer (-10000), 3) ∧
    decode .dict [28, 0xd8] = .error .unexpectedEof ∧
    Binary64.value? (integer (-10000)).toBinary64 = some (-10000) ∧
    decode .charstring [255, 0, 1, 0x80, 0] = .ok (.fixed 98304, 5) ∧
    Binary64.value? (fixed 98304).toBinary64 = some (3 / 2) ∧
    decode .dict [255, 0, 1] = .error (.invalidOperandEncoding 255) := by
  have ⟨hfront, hencodes, hfixed, hforeign⟩ := decode_code .dict
  have ⟨hd, hv⟩ := hencodes (-10000) [28, 0xd8, 0xf0] (.short (by decide) (by decide))
  have ⟨hd', hv'⟩ := hfixed 98304 (by decide) (by decide)
  have ⟨_, hrest, heof⟩ := hfront _ _ _ hd
  refine ⟨hd, hrest [139], heof 2 (by decide), ?_, hd', ?_, hforeign 255 [0, 1] (.inr (.inr rfl))⟩
  case refine_1 => exact_mod_cast hv
  case refine_2 =>
    rw [hv']
    norm_num

end Operand

end PdfGraphics.Cff
