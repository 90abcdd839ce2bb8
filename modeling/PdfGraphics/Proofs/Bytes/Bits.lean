import PdfGraphics.Proofs.Bytes.Number
/-!
The bits of numbers and of byte strings, the most significant bit first.

The bits of a byte string are those of the number that it spells. The bits of a number fall apart
into those of its quotient and of its remainder by a power of two.
-/

namespace PdfGraphics.Bytes

-- The last `width` digits of a number to the base 2, the most significant first.
def bits : Nat → Nat → List Bool
  | 0, _         => []
  | width + 1, n => bits width (n / 2) ++ [n % 2 == 1]

-- The bits of all bytes, one byte behind the other.
def bitsOf (bytes : List UInt8) : List Bool :=
  bytes.flatMap fun b => bits 8 b.toNat

variable {bytes : List UInt8} {width n : Nat}

@[simp] theorem length_bits (width n : Nat) : (bits width n).length = width := by
  induction width generalizing n with
  | zero          => rfl
  | succ width ih => simp [bits, ih]

theorem bits_add (a b n : Nat) : bits (a + b) n = bits a (n / 2 ^ b) ++ bits b n := by
  induction b generalizing n with
  | zero      => simp [bits]
  | succ b ih =>
    rw [← Nat.add_assoc, bits, ih, bits, List.append_assoc, Nat.div_div_eq_div_mul, Nat.pow_succ']

-- Only the last digits of a number count.
theorem bits_mod (width n : Nat) : bits width (n % 2 ^ width) = bits width n := by
  induction width generalizing n with
  | zero          => rfl
  | succ width ih =>
    have hd : n % 2 ^ (width + 1) / 2 = n / 2 % 2 ^ width := by
      rw [Nat.pow_succ', Nat.mod_mul_right_div_self]
    have hm : n % 2 ^ (width + 1) % 2 = n % 2 :=
      Nat.mod_mod_of_dvd _ ⟨2 ^ width, Nat.pow_succ'⟩
    rw [bits, bits, hd, hm, ih]

theorem take_bits (a b n : Nat) : (bits (a + b) n).take a = bits a (n / 2 ^ b) := by
  rw [bits_add, List.take_left' (length_bits ..)]

theorem bitsOf_eq (bytes : List UInt8) : bitsOf bytes = bits (8 * bytes.length) (value bytes) := by
  induction bytes using List.reverseRecOn with
  | nil                      => rfl
  | append_singleton bytes b ih =>
    have hlt := b.toNat_lt
    have hq : (value bytes * 256 + b.toNat) / 2 ^ 8 = value bytes := by omega
    have hr : bits 8 (value bytes * 256 + b.toNat) = bits 8 b.toNat := by
      rw [← bits_mod 8 (value bytes * 256 + b.toNat)]
      congr 1
      omega
    rw [bitsOf, List.flatMap_append, ← bitsOf, ih, value_concat, List.length_append,
      List.length_singleton, Nat.mul_add, Nat.mul_one, bits_add, hq, hr]
    simp

-- Each byte is a digit to the base 256.
theorem getElem?_eq_value {i : Nat} (h : i < bytes.length) :
    ∃ b, bytes[i]? = some b ∧ b.toNat = value bytes / 256 ^ (bytes.length - 1 - i) % 256 := by
  induction bytes using List.reverseRecOn with
  | nil                      => simp at h
  | append_singleton bytes b ih =>
    have hlt := b.toNat_lt
    rw [List.length_append, List.length_singleton] at h
    rw [value_concat, List.length_append, List.length_singleton, Nat.add_sub_cancel]
    rcases Nat.lt_or_eq_of_le (Nat.le_of_lt_succ h) with hi | rfl
    · have ⟨c, hc, hv⟩ := ih hi
      refine ⟨c, by rw [List.getElem?_append_left hi, hc], ?_⟩
      rw [hv, show bytes.length - i = bytes.length - 1 - i + 1 by omega, Nat.pow_succ',
        ← Nat.div_div_eq_div_mul, show (value bytes * 256 + b.toNat) / 256 = value bytes by omega]
    · refine ⟨b, by simp, ?_⟩
      rw [Nat.sub_self, Nat.pow_zero, Nat.div_one]
      omega

end PdfGraphics.Bytes
