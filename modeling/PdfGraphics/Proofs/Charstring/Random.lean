import Mathlib.Logic.Function.Iterate
import PdfGraphics.Proofs.Charstring.Execution
import PdfGraphics.Proofs.Scalar.Narrowing
/-!
The numbers that a charstring draws.

Different words of the sequence are followed by different words. So no word but zero is followed by
zero, and no run comes to zero. How far a run has come in the sequence is how many random operators
it has executed; nothing else that it does matters.
-/

namespace PdfGraphics.Charstring

namespace Xorshift

open Float.Model (Format)
open Rounding (Holds)

variable {x : UInt32}

-- Words that come out alike differ by a word that `f` leaves as it is. But `f` shifts, and so in
-- the end it leaves nothing of any word.
theorem injective_xor {f : UInt32 → UInt32} (n : ℕ) (hxor : ∀ x y, f (x ^^^ y) = f x ^^^ f y)
    (hlost : ∀ x, f^[n] x = 0) : Function.Injective fun x => x ^^^ f x := by
  intro x y h
  have hfixed : f (x ^^^ y) = x ^^^ y := by
    rw [hxor, ← UInt32.xor_eq_zero_iff]
    calc
      f x ^^^ f y ^^^ (x ^^^ y) = x ^^^ f x ^^^ (y ^^^ f y) := by ac_rfl
      _ = 0 := UInt32.xor_eq_zero_iff.mpr h
  have hzero : x ^^^ y = 0 := by rw [← Function.iterate_fixed hfixed n, hlost]
  exact UInt32.xor_eq_zero_iff.mp hzero

theorem next_injective : Function.Injective next := by
  have h₁ : Function.Injective fun x : UInt32 => x ^^^ (x <<< 13) :=
    injective_xor 3 (fun _ _ => UInt32.shiftLeft_xor) fun x => by
      simp [← UInt32.toBitVec_inj, ← BitVec.shiftLeft_add]
  have h₂ : Function.Injective fun x : UInt32 => x ^^^ (x >>> 17) :=
    injective_xor 2 (fun _ _ => UInt32.shiftRight_xor) fun x => by
      simp [← UInt32.toBitVec_inj, ← BitVec.shiftRight_add, BitVec.ushiftRight_eq_zero]
  have h₃ : Function.Injective fun x : UInt32 => x ^^^ (x <<< 5) :=
    injective_xor 7 (fun _ _ => UInt32.shiftLeft_xor) fun x => by
      simp [← UInt32.toBitVec_inj, ← BitVec.shiftLeft_add]
  exact h₃.comp (h₂.comp h₁)

theorem next_ne_zero (h : x ≠ 0) : next x ≠ 0 :=
  next_injective.ne h

-- The word after `k` numbers have been drawn.
def word (k : ℕ) : UInt32 :=
  next^[k] seed

theorem word_succ (k : ℕ) : word (k + 1) = next (word k) :=
  Function.iterate_succ_apply' next k seed

theorem word_ne_zero (k : ℕ) : word k ≠ 0 := by
  induction k with
  | zero      => decide
  | succ k ih => exact word_succ k ▸ next_ne_zero ih

-- The share of the largest word that a word makes, before it is rounded.
def share (x : UInt32) : ℚ :=
  x.toNat / (2 ^ 32 - 1)

theorem share_mem (h : x ≠ 0) : share x ∈ Set.Icc (2 ^ (-32 : ℤ)) 1 := by
  have hlo : (1 : ℚ) ≤ x.toNat := by
    exact_mod_cast Nat.one_le_iff_ne_zero.mpr fun hx => h (UInt32.toNat_inj.mp hx)
  have hhi : (x.toNat : ℚ) ≤ 2 ^ 32 - 1 := by
    rw [le_sub_iff_add_le]
    exact_mod_cast x.toNat_lt
  constructor
  case left =>
    calc
      (2 : ℚ) ^ (-32 : ℤ) ≤ 1 / (2 ^ 32 - 1) := by norm_num
      _ ≤ share x := div_le_div_of_nonneg_right hlo (by norm_num)
  case right => exact (div_le_one (by norm_num)).mpr hhi

theorem rounds_share (x : UInt32) :
    Binary64.Rounds .positive (share x) (x.toFloat / 4294967295) := by
  have hden : Binary64.IsSigned 4294967295 .positive (4294967295 : ℕ) :=
    (Binary64.rounds_ofNat 4294967295).isSigned (Binary64.holds_natCast _ (by norm_num))
  have h := Binary64.rounds_div (Binary64.isSigned_word x) hden (by norm_num)
  have hq : (x.toNat : ℚ) / (4294967295 : ℕ) = share x := by norm_num [share]
  exact hq ▸ h

theorem holds_bounds {spec : Format} (hs : spec.minExponent ≤ Rounding.maxExponent spec)
    (hlo : spec.minExponent ≤ -32) (hhi : 0 ≤ Rounding.maxExponent spec) :
    Holds spec (2 ^ (-32 : ℤ)) ∧ Holds spec 1 := by
  have h₁ := Rounding.holds_two_pow (e := 0) hs (by omega) hhi
  exact ⟨Rounding.holds_two_pow hs hlo (by omega), zpow_zero (2 : ℚ) ▸ h₁⟩

-- The bounds of the share are numbers of both formats, so rounding keeps it between them.
theorem value_mem (h : x ≠ 0) :
    ∃ q ∈ Set.Icc (2 ^ (-32 : ℤ)) 1, Binary32.value? (value x) = some q := by
  have hs := (rounds_share x).nearest
  rw [show (side .positive : ℚ) * share x = share x by simp [side]] at hs
  obtain ⟨hlo, hhi⟩ := holds_bounds Binary64.minExponent_le (by decide) (by decide)
  obtain ⟨hlo', hhi'⟩ := holds_bounds Binary32.minExponent_le (by decide) (by decide)
  obtain ⟨v, hv, he⟩ := hs.between Binary64.minExponent_le hlo hhi (share_mem h)
  exact (Binary32.isNearest_ofBinary64 he).between Binary32.minExponent_le hlo' hhi' hv

end Xorshift

open Xorshift (word next)

-- How many numbers were drawn by the operators that were executed.
def drawnNumbers (executed : List Execution) : ℕ :=
  executed.countP (·.op = .arithmetic .random)

namespace State

variable {nominal : Float32} {s s' : State}

theorem compute_random {op : Arithmetic} (h : s.compute op = .ok s') :
    s'.random = if op = .random then next s.random else s.random :=
  congrArg State.random (compute_frame h)

theorem stack_of_random (h : s.compute .random = .ok s') :
    s'.stack = Xorshift.value (next s.random) :: s.stack := by
  have ⟨stack, hp, he⟩ := map_eq_ok.mp h
  unfold Stack.push at hp
  split at hp <;> cases hp
  exact he ▸ rfl

theorem move_random {op : MoveOperator} (h : s.move nominal op = .ok s') :
    s'.random = s.random := by
  cases op <;> simp only [move] at h <;> split at h <;> cases h <;> rfl

theorem draw_random {op : PathOperator} (h : s.draw op = .ok s') : s'.random = s.random := by
  simp only [draw] at h
  split at h <;> cases h
  rfl

theorem finish_random : (s.finish nominal).1.random = s.random := by
  simp only [finish]
  split <;> rfl

-- A token draws one number or none.
theorem Change.random (c : Change nominal s s') :
    s'.random = s.random ∨ s'.random = next s.random := by
  cases c with
  | same | push | pop | declareStems => exact .inl rfl
  | move h    => exact .inl (move_random h)
  | draw h    => exact .inl (draw_random h)
  | compute h =>
    rw [compute_random h]
    split
    case isTrue  => exact .inr rfl
    case isFalse => exact .inl rfl
  | finish    => exact .inl finish_random

end State

namespace Machine

variable {ctx : Context} {m m' : Machine} {n : Nat} {x : Execution}

theorem random_ne_zero_step (h : m.state.random ≠ 0) : (step ctx m).machine.state.random ≠ 0 := by
  rcases (@change_step ctx m).random with hs | hs <;> rw [hs]
  case inl => exact h
  case inr => exact Xorshift.next_ne_zero h

theorem proceed_next {result : Except DecodeError State} (h : m.proceed result = .next m') :
    result = .ok m'.state := by
  cases result with
  | error _ => cases h
  | ok s    => cases h; rfl

theorem random_execute (h : execute ctx x.op x.machine = .next m') :
    m'.state.random = next^[drawnNumbers [x]] x.machine.state.random := by
  obtain ⟨op, m⟩ := x
  cases op with
  | stem          => cases h; rfl
  | mask          =>
    simp only [execute, mask] at h
    split at h <;> cases h
    rfl
  | move op       => exact State.move_random (proceed_next h)
  | path op       => exact State.draw_random (proceed_next h)
  | arithmetic op =>
    rw [State.compute_random (proceed_next h)]
    cases op <;> rfl
  | callsubr | callgsubr =>
    obtain ⟨_, _, _, _, _, _, he⟩ := call_next.mp h
    exact he ▸ rfl
  | leave         =>
    simp only [execute, leave, fail] at h
    split at h <;> cases h
    rfl
  | endchar       => cases h

theorem random_step (h : step ctx m = .next m') :
    m'.state.random = next^[drawnNumbers (m.execution? ctx).toList] m.state.random := by
  obtain ⟨hx, _, _, ha⟩ | ⟨x, hx, hm, hs⟩ := execution?_of_next h
  case inl =>
    rw [hx, ha]
    rfl
  case inr => rw [hx, ← hm, random_execute hs, Option.toList_some]

theorem Steps.random (s : Steps ctx n m m') :
    m'.state.random = next^[drawnNumbers (executedFor ctx n m)] m.state.random := by
  induction s with
  | refl        => rfl
  | step h _ ih =>
    rw [ih, random_step h, ← Function.iterate_add_apply, Nat.add_comm]
    simp only [executedFor, h, drawnNumbers, List.countP_append]

theorem Steps.random_ne_zero (s : Steps ctx n m m') (h : m.state.random ≠ 0) :
    m'.state.random ≠ 0 :=
  s.preserves (P := (·.state.random ≠ 0)) (fun _ h => random_ne_zero_step h) h

-- The random operator leaves the number of the next word on the stack.
theorem stack_of_draw (h : step ctx m = .next m') (hx : m.execution? ctx = some x)
    (ho : x.op = .arithmetic .random) :
    m'.state.stack = Xorshift.value (next m.state.random) :: m.state.stack := by
  have ⟨hs, hm⟩ := execution?_eq_some hx
  rw [hs, ho] at h
  rw [State.stack_of_random (proceed_next h), hm]

end Machine

-- Whatever is run, no machine comes to zero, neither on the way nor in the end. The word that it is
-- at and the number that it draws depend only on how many were drawn before. These numbers are
-- rounded twice from shares of the largest word, none of which is zero or more than all of it, and
-- nor are the numbers. No two words are followed by one.
theorem run_random (ctx : Context) (code : List UInt8) :
    (∀ n m, Machine.Steps ctx n { code } m →
      let k := drawnNumbers (Machine.executedFor ctx n { code })
      m.state.random = word k ∧ m.state.random ≠ 0 ∧
      (Machine.step ctx m).machine.state.random ≠ 0 ∧
      ∀ m' x, Machine.step ctx m = .next m' → m.execution? ctx = some x →
        x.op = .arithmetic .random →
        m'.state.stack = Xorshift.value (word (k + 1)) :: m.state.stack) ∧
    (∀ k, Xorshift.share (word k) ∈ Set.Ioc 0 1 ∧
      ∃ y q, Binary64.Rounds .positive (Xorshift.share (word k)) y ∧
        Xorshift.value (word k) = Binary32.ofBinary64 y ∧
        Binary32.value? (Xorshift.value (word k)) = some q ∧ q ∈ Set.Ioc 0 1) ∧
    Function.Injective next := by
  have hbounds : Set.Icc ((2 : ℚ) ^ (-32 : ℤ)) 1 ⊆ Set.Ioc 0 1 :=
    Set.Icc_subset_Ioc_iff (by norm_num) |>.mpr ⟨by norm_num, le_rfl⟩
  refine ⟨fun n m s => ?_, fun k => ?_, Xorshift.next_injective⟩
  case refine_1 =>
    have hm : m.state.random = word (drawnNumbers (Machine.executedFor ctx n { code })) := s.random
    have hz := s.random_ne_zero (Xorshift.word_ne_zero 0)
    refine ⟨hm, hz, Machine.random_ne_zero_step hz, fun m' x h hx ho => ?_⟩
    rw [Xorshift.word_succ, ← hm]
    exact Machine.stack_of_draw h hx ho
  case refine_2 =>
    have ⟨q, hq, hv⟩ := Xorshift.value_mem (Xorshift.word_ne_zero k)
    exact ⟨hbounds (Xorshift.share_mem (Xorshift.word_ne_zero k)), _, q, Xorshift.rounds_share _,
      rfl, hv, hbounds hq⟩

-- A subroutine that draws two numbers.
def randomInRoutine : Context where
  localSubrs := { entries := #[(0, [12, 23, 12, 23, 11])] }

-- The second is the number of the second word.
theorem run_random_inRoutine :
    ∃ m m', Machine.Steps randomInRoutine 3 { code := [32, 10] } m ∧
      Machine.step randomInRoutine m = .next m' ∧ m.state.random = word 1 ∧ word 1 ≠ 0 ∧
      m'.state.stack = Xorshift.value (word 2) :: m.state.stack := by
  have ⟨hruns, _, _⟩ := run_random randomInRoutine [32, 10]
  have ⟨m, m', x, s, hs, hx, ho⟩ :
      ∃ m m' x, Machine.Steps randomInRoutine 3 { code := [32, 10] } m ∧
      Machine.step randomInRoutine m = .next m' ∧ m.execution? randomInRoutine = some x ∧
      x.op = .arithmetic .random :=
    ⟨_, _, _, .step rfl (.step rfl (.step rfl .refl)), rfl, rfl, rfl⟩
  have hk : drawnNumbers (Machine.executedFor randomInRoutine 3 { code := [32, 10] }) = 1 := by
    decide +kernel
  have ⟨hm, hz, _, hv⟩ := hruns 3 m s
  rw [hk] at hm hv
  exact ⟨m, m', s, hs, hm, hm ▸ hz, hv m' x hs hx ho⟩

end PdfGraphics.Charstring
