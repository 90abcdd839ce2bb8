import Mathlib.Data.List.DropRight
import PdfGraphics.Proofs.Charstring.Alike
import PdfGraphics.Proofs.Charstring.Execution
import PdfGraphics.Proofs.Charstring.Token
/-!
The places that a run reads.

A run is in the charstring or in a subroutine, and it may come to the same bytes again in another
call. What it does depends on the bytes that it reads, and on how many others there are.
-/

namespace PdfGraphics.Charstring

-- The strings of bytes that a run can be in.
inductive Source
  | charstring
  | localSubr (i : Nat)
  | globalSubr (i : Nat)
deriving DecidableEq

-- Where a byte stands.
structure Place where
  source : Source
  offset : Nat
deriving DecidableEq

-- The bytes that a run of `code` can be in.
def Context.bytes (ctx : Context) (code : List UInt8) : Source → List UInt8
  | .charstring => code
  | .localSubr i => (ctx.localSubrs.get? i).getD []
  | .globalSubr i => (ctx.globalSubrs.get? i).getD []

-- The number of the subroutine that the top operand means.
def subroutineNumber (subrs : Cff.Index) (stack : Stack) : Nat :=
  (Binary32.truncate (stack.headD 0) + subroutineBias subrs.count).toNat

-- Where an operator goes on, if it calls a subroutine.
def Execution.target? (ctx : Context) (x : Execution) : Option Source :=
  match x.op with
  | .callsubr => some (.localSubr (subroutineNumber ctx.localSubrs x.stack))
  | .callgsubr => some (.globalSubr (subroutineNumber ctx.globalSubrs x.stack))
  | _ => none

-- How many bytes a token reads after the byte `b`. An operator over the budget is not read on, and
-- the data of a mask is not read at all.
def tokenTail (ctx : Context) (spent : Nat) (b : UInt8) : Nat :=
  if isOperand b then
    operandTail b
  else if spent < ctx.limits.maxOperators then
    operatorTail b
  else
    0

namespace Machine

-- What the running routine and its callers are in, the nearest first, after a token that leaves
-- `depth` callers. A call adds where it goes; routines that end or go back are left.
def sourcesAt (depth : Nat) (sources : List Source) : Option Source → List Source
  | some source => source :: sources.rtake depth
  | none => sources.rtake (depth + 1)

-- The sources after the token with which `m` becomes `m'`.
def sourcesAfter (ctx : Context) (m m' : Machine) (sources : List Source) : List Source :=
  sourcesAt m'.callers.length sources ((m.execution? ctx).bind (·.target? ctx))

-- The places of the bytes that the next token reads.
def readsNext (ctx : Context) (bytes : Source → List UInt8) (m : Machine) (sources : List Source) :
    List Place :=
  match fetch? m.code m.callers with
  | none => []
  | some (b, rest, callers) =>
    let source := (sources.rtake (callers.length + 1)).headD .charstring
    let start := (bytes source).length - (rest.length + 1)
    (List.range (1 + min (tokenTail ctx m.spent b) rest.length)).map fun i => ⟨source, start + i⟩

-- The places of the bytes that the next `n` tokens read, as far as the run goes.
def readsFor (ctx : Context) (bytes : Source → List UInt8) :
    Nat → Machine → List Source → List Place
  | 0, _, _ => []
  | n + 1, m, sources =>
    m.readsNext ctx bytes sources ++
      match step ctx m with
      | .next m' => readsFor ctx bytes n m' (m.sourcesAfter ctx m' sources)
      | .stop _ _ => []

end Machine

-- The places of the bytes that a whole run reads.
def reads (ctx : Context) (code : List UInt8) : List Place :=
  let m : Machine := { code }
  m.readsFor ctx (ctx.bytes code) (m.potential ctx + 1) [.charstring]

-- The bytes at the places are the same.
def Agree (bytes bytes' : Source → List UInt8) (places : List Place) : Prop :=
  ∀ p ∈ places, (bytes' p.source)[p.offset]? = (bytes p.source)[p.offset]?

instance {bytes bytes' : Source → List UInt8} {places : List Place} :
    Decidable (Agree bytes bytes' places) :=
  inferInstanceAs
    (Decidable (∀ p ∈ places, (bytes' p.source)[p.offset]? = (bytes p.source)[p.offset]?))

/-! Two runs side by side, with as many bytes everywhere. -/

-- The bytes still to come of two machines, routine by routine. A routine is in the same source in
-- both, and as far from the end.
inductive Framed (bytes bytes' : Source → List UInt8) :
    List Source → List (List UInt8) → List (List UInt8) → Prop
  | nil : Framed bytes bytes' [] [] []
  | cons {source : Source} {sources : List Source} {code code' : List UInt8}
    {callers callers' : List (List UInt8)} (h : code <:+ bytes source)
    (h' : code' <:+ bytes' source) (hl : code'.length = code.length) :
    (Framed bytes bytes' sources callers callers') →
    Framed bytes bytes' (source :: sources) (code :: callers) (code' :: callers')

variable {bytes bytes' : Source → List UInt8} {sources : List Source}
  {code code' rest rest' : List UInt8} {callers callers' : List (List UInt8)} {b b' : UInt8}

theorem rtake_cons {α : Type} {x : α} {xs : List α} {n : Nat} (h : (xs.rtake n).length = n) :
    (x :: xs).rtake n = xs.rtake n := by
  simp only [List.rtake, List.length_drop, List.length_cons] at h ⊢
  rw [show xs.length + 1 - n = (xs.length - n) + 1 by omega, List.drop_succ_cons]

theorem tail_rtake {α : Type} {xs : List α} {n : Nat} (h : (xs.rtake (n + 1)).length = n + 1) :
    (xs.rtake (n + 1)).tail = xs.rtake n := by
  simp only [List.rtake, List.length_drop, List.tail_drop] at h ⊢
  rw [show xs.length - (n + 1) + 1 = xs.length - n by omega]

theorem rtake_eq_self {α : Type} {xs : List α} {n : Nat} (h : xs.length = n) : xs.rtake n = xs := by
  simp [List.rtake, h]

namespace Framed

theorem length_sources (h : Framed bytes bytes' sources callers callers') :
    sources.length = callers.length := by
  induction h with
  | nil              => rfl
  | cons _ _ _ _ ih  => simp [ih]

theorem length_callers (h : Framed bytes bytes' sources callers callers') :
    callers'.length = callers.length := by
  induction h with
  | nil              => rfl
  | cons _ _ _ _ ih  => simp [ih]

theorem drop (h : Framed bytes bytes' sources (code :: callers) (code' :: callers')) (k : Nat) :
    Framed bytes bytes' sources (code.drop k :: callers) (code'.drop k :: callers') := by
  cases h with
  | cons h h' hl hs =>
    exact .cons ((List.drop_suffix k code).trans h) ((List.drop_suffix k code').trans h')
      (by simp [hl]) hs

theorem length_head (h : Framed bytes bytes' sources (code :: callers) (code' :: callers')) :
    code'.length = code.length := by
  cases h with
  | cons _ _ hl _ => exact hl

-- Both find their next byte in the same routine, if they find one.
theorem fetch? (h : Framed bytes bytes' sources (code :: callers) (code' :: callers')) :
    (Machine.fetch? code callers = none ∧ Machine.fetch? code' callers' = none) ∨
      ∃ b rest callers₁ b' rest' callers₁',
        Machine.fetch? code callers = some (b, rest, callers₁) ∧
        Machine.fetch? code' callers' = some (b', rest', callers₁') ∧
        Framed bytes bytes' (sources.rtake (callers₁.length + 1)) ((b :: rest) :: callers₁)
          ((b' :: rest') :: callers₁') := by
  induction callers generalizing code code' callers' sources with
  | nil                =>
    match code, h with
    | [], .cons _ _ hl .nil       =>
      cases List.length_eq_zero_iff.mp hl
      exact .inl ⟨rfl, rfl⟩
    | b :: rest, .cons hc hc' hl .nil =>
      obtain ⟨b', rest', rfl⟩ := List.exists_cons_of_length_eq_add_one hl
      exact .inr ⟨b, rest, [], b', rest', [], rfl, rfl, .cons hc hc' hl .nil⟩
  | cons code₁ callers ih  =>
    match code, h with
    | [], .cons _ _ hl hs         =>
      cases List.length_eq_zero_iff.mp hl
      cases hs with
      | cons hc hc' hl hs =>
        have hs := Framed.cons hc hc' hl hs
        match ih hs with
        | .inl hf => exact .inl hf
        | .inr ⟨b, rest, callers₁, b', rest', callers₁', hf, hf', hr⟩ =>
          refine .inr ⟨b, rest, callers₁, b', rest', callers₁', hf, hf', ?_⟩
          rwa [rtake_cons (by simpa using hr.length_sources)]
    | b :: rest, .cons hc hc' hl hs =>
      obtain ⟨b', rest', rfl⟩ := List.exists_cons_of_length_eq_add_one hl
      refine .inr ⟨b, rest, _, b', rest', _, rfl, by rw [Machine.fetch?], ?_⟩
      rw [rtake_eq_self (by simp [hs.length_sources])]
      exact .cons hc hc' hl hs

-- What both read is the same, where it agrees in the two sources.
theorem head_eq (tail : Nat) (hlen : ∀ s, (bytes' s).length = (bytes s).length)
    (h : Framed bytes bytes' sources ((b :: rest) :: callers) ((b' :: rest') :: callers'))
    (ha : let source := sources.headD .charstring
      let start := (bytes source).length - (rest.length + 1)
      ∀ i < 1 + min tail rest.length, (bytes' source)[start + i]? = (bytes source)[start + i]?) :
    b' = b ∧ rest'.take tail = rest.take tail := by
  cases h with
  | @cons source _ _ _ _ _ h h' hl _ =>
    simp only [List.headD_cons] at ha
    obtain ⟨front, h⟩ := h
    obtain ⟨front', h'⟩ := h'
    have hlen := hlen source
    have hf : (bytes source).length - (rest.length + 1) = front.length := by
      rw [← h, List.length_append, List.length_cons]
      omega
    have hf' : front'.length = front.length := by
      rw [← h, ← h', List.length_append, List.length_append] at hlen
      omega
    have he : (b' :: rest').take (tail + 1) = (b :: rest).take (tail + 1) := by
      refine List.ext_getElem? fun i => ?_
      simp only [List.getElem?_take]
      split
      case isFalse => rfl
      case isTrue hi =>
        by_cases hr : i < (b :: rest).length
        case neg =>
          rw [List.getElem?_eq_none (by omega), List.getElem?_eq_none (by omega)]
        case pos =>
          have hp := ha i (by rw [List.length_cons] at hr; omega)
          rw [hf, ← h, ← h'] at hp
          rwa [List.getElem?_append_right (by omega), List.getElem?_append_right (by omega), hf',
            Nat.add_sub_cancel_left] at hp
    rw [List.take_succ_cons, List.take_succ_cons] at he
    exact List.cons.inj he

end Framed

-- Two runs in which every source has as many bytes, and all but bytes is the same.
structure Context.SameShape (ctx ctx' : Context) (code code' : List UInt8) : Prop where
  localCount : ctx'.localSubrs.count = ctx.localSubrs.count
  globalCount : ctx'.globalSubrs.count = ctx.globalSubrs.count
  length : ∀ source, (ctx'.bytes code' source).length = (ctx.bytes code source).length
  defaultWidth : ctx'.defaultWidth = ctx.defaultWidth
  nominalWidth : ctx'.nominalWidth = ctx.nominalWidth
  limits : ctx'.limits = ctx.limits

-- Two machines that differ in nothing but bytes.
structure Machine.Twin (bytes bytes' : Source → List UInt8) (sources : List Source)
    (m m' : Machine) : Prop where
  state : m'.state = m.state
  spent : m'.spent = m.spent
  frames : Framed bytes bytes' sources (m.code :: m.callers) (m'.code :: m'.callers)

namespace Machine

open Outcome

variable {ctx ctx' : Context} {m m' m₁ : Machine} {R : Machine → Machine → Prop}

theorem Twin.length_callers (h : Twin bytes bytes' sources m m') :
    m'.callers.length = m.callers.length := by
  simpa using h.frames.length_callers

theorem Twin.takeOperand (h : Twin bytes bytes' sources m m') (hb : isOperand b = true)
    (ht : m'.code.take (operandTail b) = m.code.take (operandTail b))
    (hR : ∀ n n', n.callers = m.callers → Twin bytes bytes' sources n n' → R n n') :
    Alike R (m.takeOperand b) (m'.takeOperand b) := by
  have ⟨read, ⟨f, hread⟩, he⟩ := exists_readFrom hb
  have hl := h.frames.length_head
  simp only [Machine.takeOperand, he, hread, hl, ht, h.state]
  by_cases hk : operandTail b ≤ m.code.length
  case neg =>
    simp only [hk, if_false]
    exact .stop h.state
  case pos =>
    simp only [hk, if_true, need, Option.elim_some]
    cases Stack.push (f (m.code.take (operandTail b))).toBinary32 m.state.stack with
    | error _ => exact .stop h.state
    | ok _    => exact .next (hR _ _ rfl ⟨rfl, h.spent, h.frames.drop _⟩)

theorem Twin.mask (hn : ctx'.nominalWidth = ctx.nominalWidth) (h : Twin bytes bytes' sources m m')
    (hR : ∀ n n', n.callers = m.callers → Twin bytes bytes' sources n n' → R n n') :
    Alike R (m.mask ctx) (m'.mask ctx') := by
  simp only [Machine.mask, Bytes.skip?_eq, h.state, hn, h.frames.length_head]
  generalize m.state.declareStems ctx.nominalWidth = s
  by_cases hk : s.maskSize ≤ m.code.length
  case pos =>
    rw [if_pos hk, if_pos hk]
    exact .next (hR _ _ rfl ⟨rfl, h.spent, h.frames.drop _⟩)
  case neg =>
    rw [if_neg hk, if_neg hk]
    exact .stop rfl

theorem Twin.leave (h : Twin bytes bytes' sources m m')
    (hR : ∀ n n', n.callers.length + 1 = m.callers.length → Twin bytes bytes' sources.tail n n' →
      R n n') : Alike R m.leave m'.leave := by
  have hf := h.frames
  simp only [Machine.leave]
  generalize hc : m.callers = callers at hf
  generalize hc' : m'.callers = callers' at hf
  cases hf with
  | cons _ _ _ hf =>
    cases hf with
    | nil               => exact .stop h.state
    | cons hs hs' hl hf =>
      exact .next (hR _ _ (by simp [hc]) ⟨h.state, h.spent, .cons hs hs' hl hf⟩)

theorem isSome_get?_eq {subrs subrs' : Cff.Index} (h : subrs'.count = subrs.count) (i : Nat) :
    (subrs'.get? i).isSome = (subrs.get? i).isSome := by
  simp only [Cff.Index.count] at h
  rw [Bool.eq_iff_iff]
  simp [Cff.Index.get?, h]

-- Both have the subroutine that a number means, or neither does.
theorem subroutine?_both {subrs subrs' : Cff.Index} (h : subrs'.count = subrs.count) (n : Int) :
    (subroutine? subrs n = none ∧ subroutine? subrs' n = none) ∨
      ∃ callee callee', subroutine? subrs n = some callee ∧ subroutine? subrs' n = some callee' ∧
        subrs.get? (n + subroutineBias subrs.count).toNat = some callee ∧
        subrs'.get? (n + subroutineBias subrs.count).toNat = some callee' := by
  simp only [subroutine?, h]
  generalize n + subroutineBias subrs.count = i
  by_cases hi : 0 ≤ i
  case neg => exact .inl ⟨if_neg hi, if_neg hi⟩
  case pos =>
    rw [if_pos hi, if_pos hi]
    have hs := isSome_get?_eq h i.toNat
    cases hg : subrs.get? i.toNat with
    | none        => exact .inl ⟨rfl, by simpa [hg] using hs⟩
    | some callee =>
      obtain ⟨callee', hg'⟩ := Option.isSome_iff_exists.mp (hs.trans (by rw [hg]; rfl))
      exact .inr ⟨callee, callee', rfl, hg', rfl, hg'⟩

-- Both call the same subroutine, whatever stands in it.
theorem Twin.call {subrs subrs' : Cff.Index} (target : Nat → Source)
    (hlimits : ctx'.limits = ctx.limits) (hcount : subrs'.count = subrs.count)
    (hlen : ∀ source, (bytes' source).length = (bytes source).length)
    (hb : ∀ i, bytes (target i) = (subrs.get? i).getD [])
    (hb' : ∀ i, bytes' (target i) = (subrs'.get? i).getD [])
    (h : Twin bytes bytes' sources m m')
    (hR : ∀ n n', n.callers.length = m.callers.length + 1 →
      Twin bytes bytes' (target (subroutineNumber subrs m.state.stack) :: sources) n n' → R n n') :
    Alike R (m.call ctx subrs) (m'.call ctx' subrs') := by
  simp only [Machine.call, h.state, h.length_callers, hlimits]
  cases hv : m.state.stack with
  | nil          => exact .stop h.state
  | cons v stack =>
    rw [hv] at hR
    obtain ⟨hn, hn'⟩ | ⟨callee, callee', hn, hn', hg, hg'⟩ :=
      subroutine?_both hcount (Binary32.truncate v)
    case inl =>
      simp only [hn, hn']
      exact .stop h.state
    case inr =>
      simp only [hn, hn']
      by_cases hd : m.callers.length < ctx.limits.maxCallDepth
      case neg =>
        simp only [hd, if_false]
        exact .stop h.state
      case pos =>
        simp only [hd, if_true]
        have hb := hb (subroutineNumber subrs (v :: stack))
        have hb' := hb' (subroutineNumber subrs (v :: stack))
        simp only [subroutineNumber, List.headD_cons, hg, hg', Option.getD_some] at hb hb' hR
        have hframes := Framed.cons (List.suffix_refl _) (List.suffix_refl _)
          (hlen (target (Binary32.truncate v + subroutineBias subrs.count).toNat)) h.frames
        rw [hb, hb'] at hframes
        exact .next (hR _ _ rfl ⟨rfl, h.spent, hframes⟩)

variable {n : Nat} {x : Execution}

theorem Twin.execute (hs : Context.SameShape ctx ctx' code code')
    (h : Twin (ctx.bytes code) (ctx'.bytes code') (sources.rtake (x.machine.callers.length + 1))
      x.machine m') :
    Alike (fun n n' => Twin (ctx.bytes code) (ctx'.bytes code')
        (sourcesAt n.callers.length sources (x.target? ctx)) n n')
      (execute ctx x.op x.machine) (execute ctx' x.op m') := by
  obtain ⟨op, m⟩ := x
  by_cases ho : op.stays
  case pos =>
    have ht : Execution.target? ctx ⟨op, m⟩ = none := by
      cases op <;> first | rfl | cases ho
    rw [ht]
    exact alike_execute hs.nominalWidth ho h.state fun _ => ⟨rfl, h.spent, h.frames⟩
  case neg =>
    cases op with
    | mask      => exact h.mask hs.nominalWidth fun n n' hc hm => by rwa [← hc] at hm
    | callsubr  =>
      refine h.call .localSubr hs.limits hs.localCount hs.length (fun _ => rfl) (fun _ => rfl)
        fun n n' hc hm => ?_
      rwa [← hc] at hm
    | callgsubr =>
      refine h.call .globalSubr hs.limits hs.globalCount hs.length (fun _ => rfl) (fun _ => rfl)
        fun n n' hc hm => ?_
      rwa [← hc] at hm
    | leave     =>
      refine h.leave fun n n' hc hm => ?_
      rwa [tail_rtake (by simpa using h.frames.length_sources), ← hc] at hm
    | _         => exact absurd rfl ho

theorem Twin.readOperator (hl : ctx'.limits = ctx.limits) (h : Twin bytes bytes' sources m m')
    (ht : m.spent < ctx.limits.maxOperators →
      m'.code.take (operatorTail b) = m.code.take (operatorTail b)) :
    (m'.readOperator ctx' b).2 = (m.readOperator ctx b).2 ∧
      Twin bytes bytes' sources (m.readOperator ctx b).1 (m'.readOperator ctx' b).1 := by
  have ⟨f, hread⟩ := ReadsTail.operator b
  simp only [Machine.readOperator, hl, h.spent, hread, h.frames.length_head]
  by_cases hm : m.spent < ctx.limits.maxOperators
  case neg =>
    rw [if_neg hm, if_neg hm]
    exact ⟨rfl, h⟩
  case pos =>
    rw [if_pos hm, if_pos hm, ht hm]
    by_cases hk : operatorTail b ≤ m.code.length
    case neg =>
      rw [if_neg hk, if_neg hk]
      exact ⟨rfl, h.state, rfl, h.frames⟩
    case pos =>
      rw [if_pos hk, if_pos hk]
      cases ho : Operator.ofNumber? (f (m.code.take (operatorTail b))) with
      | none    =>
        simp only [ho, true_and]
        exact ⟨h.state, rfl, h.frames⟩
      | some op =>
        simp only [ho, true_and]
        exact ⟨h.state, rfl, h.frames.drop _⟩

-- A token does the same to both where the bytes that it reads are the same.
theorem Twin.step (hs : Context.SameShape ctx ctx' code code')
    (h : Twin (ctx.bytes code) (ctx'.bytes code') sources m m')
    (ha : Agree (ctx.bytes code) (ctx'.bytes code') (m.readsNext ctx (ctx.bytes code) sources)) :
    Alike (fun n n' => Twin (ctx.bytes code) (ctx'.bytes code') (m.sourcesAfter ctx n sources) n n')
      (step ctx m) (step ctx' m') := by
  obtain ⟨hf, hf'⟩ | ⟨b, rest, callers, b', rest', callers', hf, hf', hr⟩ := h.frames.fetch?
  case inl =>
    simp only [Machine.step, hf, hf']
    exact .stop h.state
  case inr =>
    obtain ⟨hb, ht⟩ := hr.head_eq (tokenTail ctx m.spent b) hs.length fun i hi =>
      ha ⟨_, _⟩ (by
        simp only [readsNext, hf, List.mem_map, List.mem_range]
        exact ⟨i, hi, rfl⟩)
    subst hb
    have hm : Twin (ctx.bytes code) (ctx'.bytes code') (sources.rtake (callers.length + 1))
        { m with code := rest, callers } { m' with code := rest', callers := callers' } :=
      ⟨h.state, h.spent, hr.drop 1⟩
    simp only [Machine.step, hf, hf', sourcesAfter, execution?]
    by_cases hb : isOperand b'
    case pos =>
      simp only [hb, if_true, tokenTail] at ht ⊢
      refine hm.takeOperand hb ht fun n n' hc hn => ?_
      simp only at hc
      rwa [← hc] at hn
    case neg =>
      simp only [hb, tokenTail] at ht ⊢
      obtain ⟨he, hn⟩ := hm.readOperator hs.limits (b := b') fun hlt => by rwa [if_pos hlt] at ht
      have hc : (Machine.readOperator ctx b' { m with code := rest, callers }).1.callers =
          callers := readOperator_callers rfl
      simp only [Machine.takeOperator]
      generalize Machine.readOperator ctx b' { m with code := rest, callers } = r at he hn hc ⊢
      generalize Machine.readOperator ctx' b' { m' with code := rest', callers := callers' } = r'
        at he hn ⊢
      obtain ⟨n, r⟩ := r
      obtain ⟨n', r'⟩ := r'
      cases he
      cases r with
      | error _ => exact .stop hn.state
      | ok op   =>
        rw [← hc] at hn
        exact Twin.execute (x := ⟨op, n⟩) hs hn

theorem Twin.steps (hs : Context.SameShape ctx ctx' code code') (s : Steps ctx n m m₁) (k : Nat)
    (h : Twin (ctx.bytes code) (ctx'.bytes code') sources m m')
    (ha : Agree (ctx.bytes code) (ctx'.bytes code')
      (m.readsFor ctx (ctx.bytes code) (n + k) sources)) :
    ∃ sources₁ m₁', Steps ctx' n m' m₁' ∧
      Twin (ctx.bytes code) (ctx'.bytes code') sources₁ m₁ m₁' ∧
      Agree (ctx.bytes code) (ctx'.bytes code') (m₁.readsFor ctx (ctx.bytes code) k sources₁) := by
  induction s generalizing m' sources with
  | refl              => exact ⟨sources, m', .refl, h, by rwa [Nat.zero_add] at ha⟩
  | @step n m m₂ _ hm _ ih =>
    rw [Nat.add_right_comm] at ha
    simp only [readsFor, hm, Agree, List.forall_mem_append] at ha
    have hl := h.step hs ha.left
    rw [hm] at hl
    generalize hm' : Machine.step ctx' m' = o at hl
    cases hl with
    | next h₂ =>
      have ⟨sources₁, m₁', s', h₁, ha₁⟩ := ih h₂ ha.right
      exact ⟨sources₁, m₁', .step hm' s', h₁, ha₁⟩

end Machine

-- A run depends only on the bytes that it reads, as long as no bytes are added or taken away.
theorem run_eq_of_agree {ctx ctx' : Context} (hs : Context.SameShape ctx ctx' code code')
    (ha : Agree (ctx.bytes code) (ctx'.bytes code') (reads ctx code)) :
    run ctx' code' = run ctx code := by
  have ⟨n, m, s, hm⟩ := Machine.steps_run ctx { code }
  have ⟨k, hk⟩ := Nat.exists_eq_add_of_le s.potential_le
  have h : Machine.Twin (ctx.bytes code) (ctx'.bytes code') [.charstring] { code }
      { code := code' } :=
    ⟨rfl, rfl, .cons List.suffix_rfl List.suffix_rfl (hs.length .charstring) .nil⟩
  simp only [reads, hk] at ha
  rw [show m.potential ctx + n + k + 1 = n + (m.potential ctx + k + 1) by omega] at ha
  have ⟨sources, m', s', h', ha'⟩ := h.steps hs s _ ha
  simp only [Machine.readsFor, Agree, List.forall_mem_append] at ha'
  exact run_eq_of_alike hs.defaultWidth s s' hm (h'.step hs ha'.left)

end PdfGraphics.Charstring
