import PdfGraphics.Proofs.Cff.Operand.Code
import PdfGraphics.Proofs.Charstring.Inlining
import PdfGraphics.Proofs.Scalar.Binary32
/-!
The numbers of subroutines.

The bias depends on how many subroutines there are, and it makes the numbers of all of them integers
of 16 bits. Such an integer stays the same from its bytes to the call. Of an operand with a fraction
a call only sees the integer part.
-/

namespace PdfGraphics.Charstring

open Cff (Operand)
open Cff.Operand (Encodes decode)

variable {subrs : Cff.Index} {v : Int} {i : Nat}

-- Wherever a larger bias begins, the numbers before it are still in the range.
theorem number_bounds (hc : subrs.count ≤ 65535) (hi : i < subrs.count)
    (hv : v + subroutineBias subrs.count = i) : -2 ^ 15 ≤ v ∧ v < 2 ^ 15 := by
  unfold subroutineBias at hv
  split at hv
  case isTrue => omega
  case isFalse =>
    split at hv
    all_goals omega

theorem subroutine?_of_number (hv : v + subroutineBias subrs.count = i) :
    subroutine? subrs v = subrs.get? i := by
  simp only [subroutine?, hv]
  exact if_pos (Int.natCast_nonneg i)

theorem get?_eq_none (hi : subrs.count ≤ i) : subrs.get? i = none := by
  rw [Cff.Index.get?, Array.getElem?_eq_none hi, Option.map_none]

theorem exists_get? (hi : i < subrs.count) : ∃ body, subrs.get? i = some body :=
  ⟨_, by rw [Cff.Index.get?, Array.getElem?_eq_getElem hi, Option.map_some]⟩

theorem subroutine?_eq_none (h : ∀ i < subrs.count, v + subroutineBias subrs.count ≠ i) :
    subroutine? subrs v = none := by
  by_cases hv : 0 ≤ v + subroutineBias subrs.count
  case neg => exact if_neg hv
  case pos =>
    obtain ⟨k, hk⟩ := Int.eq_ofNat_of_zero_le hv
    rw [subroutine?_of_number hk]
    exact get?_eq_none (not_lt.mp fun hlt => h k hlt hk)

-- Every integer of 16 bits has an encoding.
theorem exists_encodes (h : -2 ^ 15 ≤ v ∧ v < 2 ^ 15) : ∃ bytes, Encodes .charstring v bytes :=
  ⟨_, .short h.left h.right⟩

theorem truncate_toBinary32 (h : -2 ^ 15 ≤ v ∧ v < 2 ^ 15) :
    Binary32.truncate (Operand.integer v).toBinary32 = v :=
  Binary32.truncate_ofInt (show v.natAbs < 2 ^ 24 by omega)

theorem readFrom_of_encodes {bytes : List UInt8} (h : Encodes .charstring v bytes) :
    ∃ b front, bytes = b :: front ∧ isOperand b = true ∧
      ∀ rest, Operand.readFrom .charstring b (front ++ rest) = .ok (.integer v, rest) := by
  have hd := Operand.decode_of_encodes h
  cases bytes with
  | nil          => cases hd
  | cons b front =>
    obtain ⟨⟨v', rest⟩, hr, he⟩ := map_eq_ok.mp hd
    obtain ⟨rfl, hl⟩ := Prod.mk.inj he
    obtain ⟨front', hf, hz⟩ := Operand.readFrom_front hr
    have hrest : rest = [] := List.eq_nil_of_length_eq_zero (by
      rw [hf, List.length_cons, List.length_append] at hl
      omega)
    rw [hrest, List.append_nil] at hf
    refine ⟨b, front, rfl, ?_, hf ▸ hz⟩
    by_contra hb
    have hb : b ≠ 28 ∧ b.toNat < 32 := by simpa [isOperand, UInt8.le_iff_toNat_le] using hb
    have hforeign : Operand.IsForeign .charstring b := by
      simp only [Operand.IsForeign, ne_eq, ← UInt8.toNat_inj, UInt8.le_iff_toNat_le,
        UInt8.reduceToNat] at hb ⊢
      omega
    rw [Operand.readFrom, Operand.form?_eq_none_iff.mpr hforeign] at hr
    cases hr

namespace Machine

variable {ctx : Context} {m : Machine} {b : UInt8} {x : Float32} {stack : Stack}
  {rest bytes : List UInt8}

-- The machine comes to the operator with the byte `b`, which finds the operand `x`.
structure AtCall (ctx : Context) (b : UInt8) (x : Float32) (stack : Stack) (rest : List UInt8)
    (m : Machine) : Prop where
  code : m.code = b :: rest
  stack : m.state.stack = x :: stack
  budget : m.spent < ctx.limits.maxOperators

theorem AtCall.step_eq (h : m.AtCall ctx b x stack rest) (hc : ctx.Calls b subrs) :
    step ctx m = call ctx subrs { m with code := rest, spent := m.spent + 1 } := by
  have ⟨op, hop, hr⟩ := readsOperator_call hc h.code h.budget
  rw [hr.step_eq, execute_call hop]

theorem AtCall.step_next {body : List UInt8} (h : m.AtCall ctx b x stack rest)
    (hc : ctx.Calls b subrs) (hb : subroutine? subrs (Binary32.truncate x) = some body)
    (hd : m.callers.length < ctx.limits.maxCallDepth) :
    step ctx m = .next ⟨{ m.state with stack }, body, rest :: m.callers, m.spent + 1⟩ := by
  rw [h.step_eq hc]
  exact call_next.mpr ⟨x, stack, body, h.stack, hb, hd, rfl⟩

theorem AtCall.step_unnumbered (h : m.AtCall ctx b x stack rest) (hc : ctx.Calls b subrs)
    (hb : subroutine? subrs (Binary32.truncate x) = none) :
    step ctx m = .stop { m with code := rest, spent := m.spent + 1 }
      (some (.invalidSubroutineIndex (Binary32.truncate x))) := by
  simp only [h.step_eq hc, call, h.stack, hb, fail]

theorem AtCall.step_deep {body : List UInt8} (h : m.AtCall ctx b x stack rest)
    (hc : ctx.Calls b subrs) (hb : subroutine? subrs (Binary32.truncate x) = some body)
    (hd : ctx.limits.maxCallDepth ≤ m.callers.length) :
    step ctx m = .stop { m with code := rest, spent := m.spent + 1 }
      (some (.recursionLimitExceeded (m.callers.length + 1))) := by
  simp only [h.step_eq hc, call, h.stack, hb, if_neg (Nat.not_lt.mpr hd), fail]

theorem step_encoded (h : Encodes .charstring v bytes) (hm : m.code = bytes ++ rest)
    (hs : m.state.stack.length < maxStack) :
    step ctx m = .next { m with
      state := { m.state with stack := (Operand.integer v).toBinary32 :: m.state.stack },
      code := rest } := by
  obtain ⟨b, front, rfl, hb, hr⟩ := readFrom_of_encodes h
  rw [List.cons_append] at hm
  simp only [step, hm, fetch?, hb, if_true, takeOperand, hr, Stack.push, if_pos hs]

end Machine

open Machine

-- The integer `v` is the number of the entry `i`, for the operator with the byte `b`: it stays the
-- same on the way from its bytes to the call, and the call runs that entry.
structure Context.Numbers (ctx : Context) (b : UInt8) (subrs : Cff.Index) (i : Nat) (v : Int) :
    Prop where
  biased : v + subroutineBias subrs.count = i
  bounds : -2 ^ 15 ≤ v ∧ v < 2 ^ 15
  encoded : ∃ bytes, Encodes .charstring v bytes
  decoded : ∀ bytes, Encodes .charstring v bytes →
    decode .charstring bytes = .ok (.integer v, bytes.length) ∧
      Binary32.truncate (Operand.integer v).toBinary32 = v
  runs : ∃ body, subrs.get? i = some body ∧
    (∀ m x stack rest, AtCall ctx b x stack rest m → Binary32.truncate x = v →
      m.callers.length < ctx.limits.maxCallDepth →
      step ctx m = .next ⟨{ m.state with stack }, body, rest :: m.callers, m.spent + 1⟩) ∧
    ∀ m bytes rest, Encodes .charstring v bytes → m.code = bytes ++ b :: rest →
      m.state.stack.length < maxStack → m.spent < ctx.limits.maxOperators →
      m.callers.length < ctx.limits.maxCallDepth →
      Steps ctx 2 m ⟨m.state, body, rest :: m.callers, m.spent + 1⟩

-- Each entry has a number, and only one. An operand that is not the number of an entry is refused
-- with no change to the state.
theorem call_numbered {ctx : Context} {b : UInt8} (hc : ctx.Calls b subrs)
    (hcount : subrs.count ≤ 65535) :
    (∀ i < subrs.count, ∃ v, ctx.Numbers b subrs i v ∧
      ∀ w : Int, w + subroutineBias subrs.count = i → w = v) ∧
    ∀ m x stack rest, AtCall ctx b x stack rest m →
      (∀ i < subrs.count, Binary32.truncate x + subroutineBias subrs.count ≠ i) →
      step ctx m = .stop { m with code := rest, spent := m.spent + 1 }
        (some (.invalidSubroutineIndex (Binary32.truncate x))) := by
  refine ⟨fun i hi => ?_, fun m x stack rest h hx => h.step_unnumbered hc (subroutine?_eq_none hx)⟩
  have hbiased : (i - subroutineBias subrs.count : Int) + subroutineBias subrs.count = i :=
    Int.sub_add_cancel ..
  have hb := number_bounds hcount hi hbiased
  obtain ⟨body, hbody⟩ := exists_get? hi
  have hs := (subroutine?_of_number hbiased).trans hbody
  refine ⟨i - subroutineBias subrs.count, ⟨hbiased, hb, exists_encodes hb, fun bytes h => ?_,
    body, hbody, fun m x stack rest h hx hd => ?_, fun m bytes rest h hm hl hspent hd => ?_⟩,
    fun w hw => by omega⟩
  case refine_1 => exact ⟨Operand.decode_of_encodes h, truncate_toBinary32 hb⟩
  case refine_2 => exact h.step_next hc (by rw [hx, hs]) hd
  case refine_3 =>
    refine .step (step_encoded h hm hl) (.step (AtCall.step_next ⟨rfl, rfl, hspent⟩ hc ?_ hd) .refl)
    rw [truncate_toBinary32 hb, hs]

-- As many entries as the second bias is for. The last one ends the charstring.
def manySubroutines : Context where
  globalSubrs := { entries := (Array.replicate 33898 (0, [11])).push (0, [14]) }

-- The number of the last entry is the greatest integer of 16 bits. Infinity is the number of none.
theorem call_numbered_last :
    manySubroutines.globalSubrs.count = 33899 ∧
    (∃ m, Steps manySubroutines 2 { code := [28, 0x7f, 0xff, 29] } m ∧
      m.code = [14] ∧ m.callers = [[]]) ∧
    step manySubroutines { state := { stack := [Binary32.posInf] }, code := [29] } =
      .stop { state := { stack := [Binary32.posInf] }, code := [], spent := 1 }
        (some (.invalidSubroutineIndex 2147483647)) := by
  have hn : manySubroutines.globalSubrs.count = 33899 := by
    simp [manySubroutines, Cff.Index.count]
  have hbias : subroutineBias manySubroutines.globalSubrs.count = 1131 := by rw [hn]; rfl
  have ⟨numbers, others⟩ := @call_numbered _ manySubroutines 29 .callgsubr (by omega)
  obtain ⟨v, hv, -⟩ := numbers 33898 (by omega)
  obtain ⟨body, hbody, -, executed⟩ := hv.runs
  have hlast : manySubroutines.globalSubrs.get? 33898 = some [14] := by
    rw [Cff.Index.get?, manySubroutines, Array.getElem?_push, if_pos Array.size_replicate.symm,
      Option.map_some]
  have hv : v = 32767 := by
    have := hbias ▸ hv.biased
    omega
  cases hlast.symm.trans hbody
  have he : Encodes .charstring v [28, 0x7f, 0xff] :=
    hv ▸ .short (n := 32767) (by decide) (by decide)
  have ht : Binary32.truncate Binary32.posInf = 2147483647 := by decide +kernel
  refine ⟨hn, ⟨_, executed _ _ [] he rfl (by decide) (by decide) (by decide), rfl, rfl⟩, ?_⟩
  rw [others _ Binary32.posInf [] [] ⟨rfl, rfl, by decide⟩ fun i hi => by omega, ht]

-- A call drops the fraction of its operand. It is the call that the integer part asks for, and is
-- only refused as that one would be. The operand is never told to be invalid.
theorem call_drops_fraction {ctx : Context} {b : UInt8} {m : Machine} {x : Float32} {stack : Stack}
    {rest : List UInt8} {q : ℚ} (hc : ctx.Calls b subrs) (h : m.AtCall ctx b x stack rest)
    (hx : Binary32.value? x = some q) (hq : Int.fract q ≠ 0) :
    let n := Binary32.towardZero q
    let behind : Machine := { m with code := rest, spent := m.spent + 1 }
    (step ctx m =
      match subroutine? subrs n with
      | none => .stop behind (some (.invalidSubroutineIndex n))
      | some body =>
        if m.callers.length < ctx.limits.maxCallDepth then
          .next ⟨{ m.state with stack }, body, rest :: m.callers, m.spent + 1⟩
        else
          .stop behind (some (.recursionLimitExceeded (m.callers.length + 1)))) ∧
    (∀ m', step ctx m ≠ .stop m' (some .invalidOperand)) ∧
    (step ctx m).machine.state = { m.state with stack := (step ctx m).machine.state.stack } := by
  intro n behind
  have hn : Binary32.truncate x = n := Binary32.truncate_of_fract hx hq
  cases hs : subroutine? subrs n with
  | none      =>
    have he := h.step_unnumbered hc (by rw [hn, hs])
    rw [hn] at he
    exact ⟨he, by simp [he], by rw [he]; rfl⟩
  | some body =>
    have hb : subroutine? subrs (Binary32.truncate x) = some body := by rw [hn, hs]
    by_cases hd : m.callers.length < ctx.limits.maxCallDepth
    case pos =>
      have he := h.step_next hc hb hd
      exact ⟨by simp only [he, if_pos hd], by simp [he], by rw [he]; rfl⟩
    case neg =>
      have he := h.step_deep hc hb (not_lt.mp hd)
      exact ⟨by simp only [he, if_neg hd, behind], by simp [he], by rw [he]; rfl⟩

-- The only local subroutine draws a line.
def lineSubroutine : Context where
  localSubrs := { entries := #[(0, [140, 141, 5])] }

-- The number of the only subroutine is -107.
theorem call_drops_fraction_half :
    Binary32.value? (Float32.ofBits 0xc2d70000) = some (-215 / 2) ∧
    step lineSubroutine { state := { stack := [Float32.ofBits 0xc2d70000] }, code := [10] } =
      .next { code := [140, 141, 5], callers := [[]], spent := 1 } := by
  have hx : Binary32.value? (Float32.ofBits 0xc2d70000) = some (-215 / 2) := by
    have hu : (Float32.ofBits 0xc2d70000).toModel.unpack =
        .finite .negative 14090240 (-17) (by decide) := rfl
    rw [Binary32.value?, hu, Rounding.value?]
    norm_num [side]
  have hcall : AtCall lineSubroutine 10 (Float32.ofBits 0xc2d70000) [] []
      { state := { stack := [Float32.ofBits 0xc2d70000] }, code := [10] } :=
    ⟨rfl, rfl, by decide⟩
  obtain ⟨he, -, -⟩ := call_drops_fraction .callsubr hcall hx (by decide +kernel)
  have hn : Binary32.towardZero (-215 / 2) = -107 := by decide +kernel
  exact ⟨hx, he.trans (by rw [hn]; rfl)⟩

-- The number -107.5 in 65536ths is taken without an error, and the line is drawn.
theorem fraction_runs_subroutine :
    (run lineSubroutine [255, 0xff, 0x94, 0x80, 0, 10]).2 = none ∧
    (run lineSubroutine [255, 0xff, 0x94, 0x80, 0, 10]).1.outline.ops =
      [.moveTo .origin, .lineTo ⟨1, 2⟩, .close] := by
  decide +kernel

end PdfGraphics.Charstring
