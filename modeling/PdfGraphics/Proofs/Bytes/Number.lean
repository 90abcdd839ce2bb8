import Mathlib.Algebra.Group.Nat.Defs
import Mathlib.Data.List.Induction
import PdfGraphics.Bytes.Basic
/-!
Numbers in byte strings.

Reading numbers of one width gives those at the positions in front, as long as the bytes last. What
was spelled in big-endian order is read back.
-/

namespace PdfGraphics.Bytes

variable {bytes : List UInt8} {width n : Nat}

-- The number that the `width` bytes at a position spell.
def numberAt (bytes : List UInt8) (position width : Nat) : Nat :=
  value ((bytes.drop position).take width)

-- The last `width` digits of a number to the base 256, in big-endian order.
def spell : Nat → Nat → List UInt8
  | 0, _         => []
  | width + 1, n => spell width (n / 256) ++ [UInt8.ofNat n]

theorem numberAt_drop (bytes : List UInt8) (p q width : Nat) :
    numberAt (bytes.drop p) q width = numberAt bytes (p + q) width := by
  rw [numberAt, List.drop_drop, numberAt]

theorem take?_eq (n : Nat) (bytes : List UInt8) :
    take? n bytes = if n ≤ bytes.length then some (bytes.take n, bytes.drop n) else none := by
  have hl : (bytes.take n).length = n ↔ n ≤ bytes.length := by
    rw [List.length_take]
    omega
  simp only [take?, hl]

theorem number?_eq (width : Nat) (bytes : List UInt8) :
    number? width bytes =
      if width ≤ bytes.length then some (numberAt bytes 0 width, bytes.drop width) else none := by
  rw [number?, take?_eq]
  split <;> rfl

theorem numbersAfter_eq (width : Nat) (read : List Nat) (count : Nat) (bytes : List UInt8) :
    numbersAfter width read count bytes =
      if width * count ≤ bytes.length then
        some (read.reverse ++ (List.range count).map (fun i => numberAt bytes (width * i) width),
          bytes.drop (width * count))
      else
        none := by
  induction count generalizing read bytes with
  | zero          => simp [numbersAfter]
  | succ count ih =>
    have hm : width * (count + 1) = width + width * count := by rw [Nat.mul_succ, Nat.add_comm]
    rw [numbersAfter, number?_eq]
    by_cases hw : width ≤ bytes.length
    case neg =>
      have : ¬width * (count + 1) ≤ bytes.length := by omega
      simp only [hw, this, if_false]
    case pos =>
      have hl : width * count ≤ (bytes.drop width).length ↔ width * (count + 1) ≤ bytes.length := by
        rw [List.length_drop]
        omega
      have hp : (fun i => numberAt bytes (width * i) width) ∘ Nat.succ =
          fun i => numberAt bytes (width + width * i) width := by
        funext i
        simp [Nat.mul_succ, Nat.add_comm]
      simp only [hw, if_true, ih, hl, List.range_succ_eq_map, List.map_cons, List.map_map, hp,
        List.reverse_cons, List.append_assoc, List.singleton_append, List.drop_drop, numberAt_drop,
        hm, Nat.mul_zero]

theorem numbers?_eq (width count : Nat) (bytes : List UInt8) :
    numbers? width count bytes =
      if width * count ≤ bytes.length then
        some ((List.range count).map (fun i => numberAt bytes (width * i) width),
          bytes.drop (width * count))
      else
        none :=
  numbersAfter_eq width [] count bytes

theorem take?_drop_eq_some {position : Nat} {front rest : List UInt8} :
    take? n (bytes.drop position) = some (front, rest) ↔
      n ≤ bytes.length - position ∧ (bytes.drop position).take n = front ∧
        bytes.drop (position + n) = rest := by
  rw [take?_eq, List.length_drop, List.drop_drop]
  simp only [Option.ite_none_right_eq_some, Option.some.injEq, Prod.mk.injEq]

theorem number?_drop_eq_some (h : 0 < width) {position : Nat} {rest : List UInt8} :
    number? width (bytes.drop position) = some (n, rest) ↔
      position + width ≤ bytes.length ∧ numberAt bytes position width = n ∧
        bytes.drop (position + width) = rest := by
  have hl : width ≤ bytes.length - position ↔ position + width ≤ bytes.length := by omega
  rw [number?_eq, numberAt_drop, List.length_drop, List.drop_drop, Nat.add_zero]
  simp only [hl, Option.ite_none_right_eq_some, Option.some.injEq, Prod.mk.injEq]

theorem numbers?_drop_eq_some {count : Nat} (h : 0 < width * count) {position : Nat}
    {ns : List Nat} {rest : List UInt8} :
    numbers? width count (bytes.drop position) = some (ns, rest) ↔
      position + width * count ≤ bytes.length ∧
        (List.range count).map (fun i => numberAt bytes (position + width * i) width) = ns ∧
        bytes.drop (position + width * count) = rest := by
  have hl : width * count ≤ bytes.length - position ↔
      position + width * count ≤ bytes.length := by omega
  simp only [numbers?_eq, numberAt_drop, List.length_drop, List.drop_drop, hl,
    Option.ite_none_right_eq_some, Option.some.injEq, Prod.mk.injEq]

theorem slice?_eq (bytes : List UInt8) (offset size : Nat) :
    slice? bytes offset size =
      if offset + size ≤ bytes.length then some ((bytes.drop offset).take size) else none := by
  rw [slice?, take?_eq, List.length_drop]
  by_cases ho : offset ≤ bytes.length
  case neg =>
    have : ¬offset + size ≤ bytes.length := by omega
    simp only [ho, this, if_false]
  case pos =>
    have hs : size ≤ bytes.length - offset ↔ offset + size ≤ bytes.length := by omega
    simp only [ho, hs, if_true]
    split <;> rfl

@[simp] theorem length_spell (width n : Nat) : (spell width n).length = width := by
  induction width generalizing n with
  | zero          => rfl
  | succ width ih => simp [spell, ih]

theorem value_spell (h : n < 256 ^ width) : value (spell width n) = n := by
  induction width generalizing n with
  | zero          =>
    have : n = 0 := by simpa using h
    rw [this]
    rfl
  | succ width ih =>
    have hd : value (spell width (n / 256)) = n / 256 :=
      ih (Nat.div_lt_of_lt_mul (by rwa [Nat.pow_succ, Nat.mul_comm] at h))
    rw [value] at hd
    simp only [value, spell, List.foldl_append, hd, List.foldl_cons, List.foldl_nil,
      UInt8.toNat_ofNat']
    exact Nat.div_add_mod' n 256

theorem value_concat (bytes : List UInt8) (b : UInt8) :
    value (bytes ++ [b]) = value bytes * 256 + b.toNat := by
  simp [value]

theorem value_lt (bytes : List UInt8) : value bytes < 256 ^ bytes.length := by
  induction bytes using List.reverseRecOn with
  | nil                   => decide
  | append_singleton bytes b ih =>
    have := b.toNat_lt
    rw [value_concat, List.length_append, List.length_singleton, Nat.pow_succ]
    omega

theorem number?_lt {rest : List UInt8} (h : number? width bytes = some (n, rest)) :
    n < 256 ^ width := by
  rw [number?_eq] at h
  split at h <;> cases h
  case isTrue hw =>
    have hlt := value_lt (bytes.take width)
    rwa [List.length_take, Nat.min_eq_left hw] at hlt

theorem spell_value (bytes : List UInt8) : spell bytes.length (value bytes) = bytes := by
  induction bytes using List.reverseRecOn with
  | nil                   => rfl
  | append_singleton bytes b ih =>
    have hlt := b.toNat_lt
    have hd : (value bytes * 256 + b.toNat) / 256 = value bytes := by omega
    have hb : UInt8.ofNat (value bytes * 256 + b.toNat) = b := by
      rw [← UInt8.toNat_inj, UInt8.toNat_ofNat']
      omega
    rw [value_concat, List.length_append, List.length_singleton, spell, hd, hb, ih]

theorem number?_spell (h : n < 256 ^ width) (rest : List UInt8) :
    number? width (spell width n ++ rest) = some (n, rest) := by
  have ht : take? width (spell width n ++ rest) = some (spell width n, rest) :=
    take?_eq_some.mpr ⟨length_spell .., rfl⟩
  simp [number?, ht, value_spell h]

theorem numbersAfter_spell {ns : List Nat} (h : ∀ n ∈ ns, n < 256 ^ width) (read : List Nat)
    (rest : List UInt8) :
    numbersAfter width read ns.length (ns.flatMap (spell width) ++ rest) =
      some (read.reverse ++ ns, rest) := by
  induction ns generalizing read with
  | nil          => simp [numbersAfter]
  | cons n ns ih =>
    have ⟨hn, hns⟩ := List.forall_mem_cons.mp h
    simp only [List.length_cons, numbersAfter, List.flatMap_cons, List.append_assoc,
      number?_spell hn, ih hns, List.reverse_cons, List.singleton_append]

theorem numbers?_spell {ns : List Nat} (h : ∀ n ∈ ns, n < 256 ^ width) (rest : List UInt8) :
    numbers? width ns.length (ns.flatMap (spell width) ++ rest) = some (ns, rest) :=
  numbersAfter_spell h [] rest

end PdfGraphics.Bytes
