import PdfGraphics.Proofs.Cff.Operand.Spelling
import PdfGraphics.Proofs.Scalar.Binary64
/-!
The decimal numbers in packed reals.

The grammar says which marks are a decimal number, and which number it is. The marks before the end
nibble are read just where they are such a number or where there are none of them, and the result is
the nearest binary64 number.
-/

namespace PdfGraphics.Cff.PackedReal

open Float.Model.UnpackedFloat (Sign)

def AreDigits (ds : List Nat) : Prop :=
  ∀ d ∈ ds, d < 10

-- The number that digits spell, the most significant one first.
def number (ds : List Nat) : Nat :=
  Nat.ofDigits 10 ds.reverse

-- Digits with a point among, before or behind them, or with none.
inductive Mantissa : List Mark → ℚ → Prop
  | whole {w : List Nat} (digits : AreDigits w) (nonempty : w ≠ []) :
    Mantissa (w.map .digit) (number w)
  | closed {w p : List Nat} (digits : AreDigits w) (part : AreDigits p) (nonempty : w ≠ []) :
    Mantissa (w.map .digit ++ .point :: p.map .digit) (number w + number p / 10 ^ p.length)
  | opened {w p : List Nat} (digits : AreDigits w) (part : AreDigits p) (nonempty : p ≠ []) :
    Mantissa (w.map .digit ++ .point :: p.map .digit) (number w + number p / 10 ^ p.length)

inductive Exponent : List Mark → ℤ → Prop
  | none : Exponent [] 0
  | positive {ds : List Nat} (digits : AreDigits ds) (nonempty : ds ≠ []) :
    Exponent (.exponent :: ds.map .digit) (number ds)
  | negative {ds : List Nat} (digits : AreDigits ds) (nonempty : ds ≠ []) :
    Exponent (.exponent :: .minus :: ds.map .digit) (-number ds)

-- A decimal number by its sign and its magnitude.
inductive Decimal : List Mark → Sign → ℚ → Prop
  | positive {ms es : List Mark} {q : ℚ} {e : ℤ} (mantissa : Mantissa ms q)
    (exponent : Exponent es e) : Decimal (ms ++ es) .positive (q * 10 ^ e)
  | negative {ms es : List Mark} {q : ℚ} {e : ℤ} (mantissa : Mantissa ms q)
    (exponent : Exponent es e) : Decimal (.minus :: (ms ++ es)) .negative (q * 10 ^ e)

section Parsing

variable {ms rest : List Mark} {ds w p : List Nat}

-- The marks begin with no digit.
def EndsDigits (ms : List Mark) : Prop :=
  ∀ d rest, ms ≠ .digit d :: rest

theorem ofDigits_eq (ds : List Nat) : ofDigits ds = number ds := by
  rw [number, Nat.ofDigits_eq_foldr, List.foldr_reverse, ofDigits]
  congr
  funext n d
  simp [Nat.mul_comm, Nat.add_comm]

theorem number_append (w p : List Nat) :
    number (w ++ p) = number w * 10 ^ p.length + number p := by
  rw [number, List.reverse_append, Nat.ofDigits_append, List.length_reverse, number, number]
  ring

theorem digits_append (ds : List Nat) (h : EndsDigits rest) :
    digits (ds.map .digit ++ rest) = (ds, rest) := by
  induction ds with
  | nil          =>
    match rest, h with
    | [], _                                               => rfl
    | .digit d :: ms, h                                   => exact absurd rfl (h d ms)
    | .point :: _, _ | .exponent :: _, _ | .minus :: _, _ => rfl
  | cons d ds ih => rw [List.map_cons, List.cons_append, digits, ih]

theorem digits_spec (ms : List Mark) :
    ms = (digits ms).1.map .digit ++ (digits ms).2 := by
  fun_induction digits ms with
  | case1 d ms ds rest hd ih =>
    rw [hd] at ih
    exact congrArg (.digit d :: ·) ih
  | case2 ms h               => rfl

theorem sign_spec (ms : List Mark) :
    sign ms = (true, (sign ms).2) ∧ ms = .minus :: (sign ms).2 ∨ sign ms = (false, ms) := by
  unfold sign
  split
  case h_1 => exact .inl ⟨rfl, rfl⟩
  case h_2 => exact .inr rfl

theorem fraction_spec (ms : List Mark) :
    ms = .point :: ((fraction ms).1.map .digit ++ (fraction ms).2) ∨ fraction ms = ([], ms) := by
  unfold fraction
  split
  case h_1 => exact .inl (congrArg _ (digits_spec _))
  case h_2 => exact .inr rfl

-- Marks of which the digits are decimal ones.
def IsText (ms : List Mark) : Prop :=
  ∀ d, .digit d ∈ ms → d < 10

theorem areDigits_of_isText (h : IsText (ds.map .digit ++ rest)) : AreDigits ds :=
  fun d hm => h d (List.mem_append_left _ (List.mem_map_of_mem hm))

theorem endsDigits_nil : EndsDigits [] :=
  nofun

theorem isText_sign (h : IsText ms) : IsText (sign ms).2 := by
  unfold sign
  split
  case h_1 => exact fun d hm => h d (List.mem_cons_of_mem _ hm)
  case h_2 => exact h

theorem exponent_of_exponent? {e : Int} (ht : IsText ms) (h : exponent? ms = some e) :
    Exponent ms e := by
  unfold exponent? at h
  split at h
  case h_1    =>
    cases h
    exact .none
  case h_2 ms =>
    have htext : IsText (sign ms).2 :=
      isText_sign fun d hm => ht d (List.mem_cons_of_mem _ hm)
    have hs := sign_spec ms
    generalize sign ms = signed at h hs htext
    have ⟨isNegative, rest⟩ := signed
    have hds := digits_spec rest
    simp only at h hs htext
    split at h
    case h_1 d ds hd =>
      rw [hd] at hds
      rw [ofDigits_eq] at h
      have hdigits : AreDigits (d :: ds) := areDigits_of_isText (hds ▸ htext)
      rw [List.append_nil] at hds
      rcases hs with ⟨hs, rfl⟩ | hs <;> cases hs <;> cases h <;> rw [hds]
      case inl => exact .negative hdigits nofun
      case inr => exact .positive hdigits nofun
    case h_2 => cases h
  case h_3    => cases h

theorem exponent?_of_exponent {e : Int} (h : Exponent ms e) : exponent? ms = some e := by
  have digits_map (ds : List Nat) : digits (ds.map .digit) = (ds, []) := by
    have hd := digits_append ds endsDigits_nil
    rwa [List.append_nil] at hd
  cases h with
  | none                                     => rfl
  | @positive ds _ hne | @negative ds _ hne =>
    cases ds with
    | nil       => exact absurd rfl hne
    | cons d ds =>
      have hd := digits_map (d :: ds)
      simp only [List.map_cons] at hd
      simp only [exponent?, sign, List.map_cons, hd, ofDigits_eq]
      rfl

theorem endsDigits_of_exponent {e : Int} (h : Exponent ms e) : EndsDigits ms := by
  cases h <;> nofun

theorem fraction_of_exponent {e : Int} (h : Exponent ms e) : fraction ms = ([], ms) := by
  cases h <;> rfl

variable {es : List Mark} {q : ℚ} {e : ℤ} {s : Sign}

theorem sign_of_mantissa (h : Mantissa ms q) (es : List Mark) :
    sign (ms ++ es) = (false, ms ++ es) := by
  cases h with
  | @whole w _ hne      =>
    cases w with
    | nil  => exact absurd rfl hne
    | cons => rfl
  | @closed w | @opened w => cases w <;> rfl

-- The digits before and behind the point are found, and the exponent after them.
theorem parts_of_mantissa (h : Mantissa ms q) (he : Exponent es e) :
    ∃ w p rest, digits (ms ++ es) = (w, rest) ∧ fraction rest = (p, es) ∧ (w ≠ [] ∨ p ≠ []) ∧
      q = number (w ++ p) / 10 ^ p.length := by
  have hends := endsDigits_of_exponent he
  have hpoint (w p : List Nat) :
      digits ((w.map .digit ++ .point :: p.map .digit) ++ es) =
        (w, .point :: (p.map .digit ++ es)) := by
    rw [List.append_assoc, List.cons_append]
    exact digits_append w nofun
  have hvalue (w p : List Nat) :
      (number w + number p / 10 ^ p.length : ℚ) = number (w ++ p) / 10 ^ p.length := by
    rw [number_append, Nat.cast_add, Nat.cast_mul, Nat.cast_pow, Nat.cast_ofNat, add_div,
      mul_div_cancel_right₀ _ (by positivity)]
  cases h with
  | @whole w _ hne      =>
    refine ⟨w, [], es, digits_append w hends, fraction_of_exponent he, .inl hne, ?_⟩
    simp
  | @closed w p _ _ hne =>
    exact ⟨w, p, _, hpoint w p, digits_append p hends, .inl hne, hvalue w p⟩
  | @opened w p _ _ hne =>
    exact ⟨w, p, _, hpoint w p, digits_append p hends, .inr hne, hvalue w p⟩

-- A number is read with or without a sign, and rounded once.
theorem parse?_of_parts (hm : Mantissa ms q) (he : Exponent es e) :
    ∃ x, Binary64.Rounds .positive (q * 10 ^ e) x ∧ parse? (ms ++ es) = some x ∧
      parse? (.minus :: (ms ++ es)) = some (-x) := by
  have ⟨w, p, rest, hd, hf, hne, hq⟩ := parts_of_mantissa hm he
  have hs := sign_of_mantissa hm es
  have hminus : sign (.minus :: (ms ++ es)) = (true, ms ++ es) := rfl
  have hsome : (ms ++ es).isEmpty = false := by
    rw [List.isEmpty_eq_false_iff]
    intro hnil
    rw [hnil] at hd
    cases hd
    cases hf
    simp at hne
  have hparts : (w.isEmpty && p.isEmpty) = false := by
    rcases hne with hne | hne <;> simp [hne]
  have hvalue : q * 10 ^ e = number (w ++ p) * 10 ^ (e - p.length) := by
    rw [hq, zpow_sub₀ (by norm_num), zpow_natCast]
    ring
  refine ⟨_, hvalue ▸ Binary64.rounds_decimal (number (w ++ p)) (e - p.length), ?_, ?_⟩
  case refine_1 =>
    simp only [parse?, hsome, hs, hd, hf, hparts, exponent?_of_exponent he, ofDigits_eq]
    rfl
  case refine_2 =>
    simp only [parse?, hminus, hd, hf, hparts, exponent?_of_exponent he, ofDigits_eq]
    rfl

-- What the grammar derives is read as the nearest binary64 number.
theorem parse?_of_decimal (h : Decimal ms s q) :
    ∃ x, parse? ms = some x ∧ Binary64.Rounds s q x := by
  cases h with
  | positive hm he =>
    have ⟨x, hx, hp, _⟩ := parse?_of_parts hm he
    exact ⟨x, hp, hx⟩
  | negative hm he =>
    have ⟨x, hx, _, hn⟩ := parse?_of_parts hm he
    exact ⟨-x, hn, hx.neg⟩

theorem exists_mantissa (ht : IsText ms) (hd : digits ms = (w, rest))
    (hf : fraction rest = (p, es)) (hne : w ≠ [] ∨ p ≠ []) :
    ∃ front q, Mantissa front q ∧ ms = front ++ es := by
  have hms : ms = w.map .digit ++ rest := by
    have h := digits_spec ms
    rwa [hd] at h
  have hw : AreDigits w := areDigits_of_isText (hms ▸ ht)
  rcases fraction_spec rest with hrest | hrest <;> rw [hf] at hrest
  case inl =>
    have htext : IsText (p.map .digit ++ es) := by
      intro d hm
      apply ht d
      rw [hms, hrest]
      exact List.mem_append_right _ (List.mem_cons_of_mem _ hm)
    have hp := areDigits_of_isText htext
    have heq : ms = (w.map .digit ++ .point :: p.map .digit) ++ es := by
      rw [hms, hrest, List.append_assoc, List.cons_append]
    rcases hne with hne | hne
    case inl => exact ⟨_, _, .closed hw hp hne, heq⟩
    case inr => exact ⟨_, _, .opened hw hp hne, heq⟩
  case inr =>
    cases hrest
    exact ⟨_, _, .whole hw (hne.resolve_right (absurd rfl)), hms⟩

-- Nothing else is read, but for no marks at all.
theorem decimal_of_parse? {x : Float} (ht : IsText ms) (hne : ms ≠ []) (h : parse? ms = some x) :
    ∃ s q, Decimal ms s q := by
  have htext := isText_sign ht
  have hs := sign_spec ms
  rw [parse?, if_neg (by rwa [List.isEmpty_iff])] at h
  generalize sign ms = signed at h hs htext
  have ⟨isNegative, rest⟩ := signed
  generalize hd : digits rest = whole at h
  have ⟨w, afterWhole⟩ := whole
  generalize hf : fraction afterWhole = part at h
  have ⟨p, es⟩ := part
  simp only [hd, hf] at h
  split at h
  case isTrue => cases h
  case isFalse hparts =>
    have ⟨e, he, _⟩ := Option.map_eq_some_iff.mp h
    have hparts : w ≠ [] ∨ p ≠ [] := by
      simpa [-not_and, not_and_or] using hparts
    have ⟨front, q, hm, hrest⟩ := exists_mantissa htext hd hf hparts
    have hexponent : Exponent es e :=
      exponent_of_exponent? (fun d hd => htext d (hrest ▸ List.mem_append_right _ hd)) he
    subst hrest
    rcases hs with ⟨_, rfl⟩ | hs
    case inl => exact ⟨_, _, .negative hm hexponent⟩
    case inr =>
      cases hs
      exact ⟨_, _, .positive hm hexponent⟩

end Parsing

section Decoding

variable {bytes : List UInt8} {ns : List Nat} {ms : List Mark}

-- The nibbles in front of the first nibble 15, if that is one of the first 64.
inductive Ended (bytes : List UInt8) (ns : List Nat) : Prop
  | intro {padding : List Nat} (nibbles : (nibblesOf bytes).take 64 = ns ++ 15 :: padding)
    (first : 15 ∉ ns)

-- What nibbles spell, one after the other.
inductive Written : List Nat → List Mark → Prop
  | nil : Written [] []
  | digit {n : Nat} {ns : List Nat} {ms : List Mark} (h : n ≤ 9) (rest : Written ns ms) :
    Written (n :: ns) (.digit n :: ms)
  | point {ns : List Nat} {ms : List Mark} (rest : Written ns ms) :
    Written (10 :: ns) (.point :: ms)
  | exponent {ns : List Nat} {ms : List Mark} (rest : Written ns ms) :
    Written (11 :: ns) (.exponent :: ms)
  | negative {ns : List Nat} {ms : List Mark} (rest : Written ns ms) :
    Written (12 :: ns) (.exponent :: .minus :: ms)
  | filler {ns : List Nat} {ms : List Mark} (rest : Written ns ms) : Written (13 :: ns) ms
  | minus {ns : List Nat} {ms : List Mark} (rest : Written ns ms) :
    Written (14 :: ns) (.minus :: ms)

theorem Written.isText (h : Written ns ms) : IsText ms := by
  induction h with
  | nil                                         => nofun
  | filler _ ih                                 => exact ih
  | digit | point | exponent | negative | minus => grind [IsText]

theorem written_flatMap (h : ∀ n ∈ ns, n < 15) : Written ns (ns.flatMap marks) := by
  induction ns with
  | nil          => exact .nil
  | cons n ns ih =>
    have ⟨hn, hns⟩ := List.forall_mem_cons.mp h
    have ih := ih hns
    rw [List.flatMap_cons]
    unfold marks
    split
    case h_1 => exact .point ih
    case h_2 => exact .exponent ih
    case h_3 => exact .negative ih
    case h_4 => exact .filler ih
    case h_5 => exact .minus ih
    case h_6 => exact .digit (by grind) ih

theorem marks_of_le {n : Nat} (h : n ≤ 9) : marks n = [.digit n] := by
  unfold marks
  split
  case h_6 => rfl
  all_goals omega

theorem Written.eq_flatMap (h : Written ns ms) : ms = ns.flatMap marks := by
  induction h with
  | nil           => rfl
  | digit h _ ih  => rw [ih, List.flatMap_cons, marks_of_le h, List.singleton_append]
  | point _ ih | exponent _ ih | negative _ ih | filler _ ih | minus _ ih =>
    rw [ih]
    rfl

theorem lt_of_mem_nibblesOf {n : Nat} (h : n ∈ nibblesOf bytes) : n < 16 := by
  have ⟨b, _, hn⟩ := List.mem_flatMap.mp h
  have hb := b.toNat_lt
  simp only [List.mem_cons, List.not_mem_nil, or_false] at hn
  omega

theorem Ended.written (h : Ended bytes ns) : Written ns (ns.flatMap marks) := by
  have ⟨hs, hf⟩ := h
  refine written_flatMap fun n hn => ?_
  have hlt : n < 16 :=
    lt_of_mem_nibblesOf (List.mem_of_mem_take (hs ▸ List.mem_append_left _ hn))
  have hne : n ≠ 15 := fun he => hf (he ▸ hn)
  omega

-- The bytes with the nibbles up to the end are taken off, and with them the rest of the last byte.
theorem Ended.nibbles_eq (h : Ended bytes ns) :
    ∃ front rest, bytes = front ++ rest ∧ front.length = (ns.length + 1) ⌈/⌉ 2 ∧
      nibbles maxBytes bytes = .ok (ns, rest) := by
  cases h with
  | @intro padding hs hf =>
    have hc : (ns.length + 1) ⌈/⌉ 2 = (ns.length + 2) / 2 := Nat.ceilDiv_eq_add_pred_div ..
    generalize (ns.length + 1) ⌈/⌉ 2 = c at hc ⊢
    have hlen := congrArg List.length hs
    rw [List.length_take, length_nibblesOf, List.length_append, List.length_cons] at hlen
    have hfront : (bytes.take c).length = c := List.length_take_of_le (by omega)
    have ⟨i, hi⟩ : ∃ i, 2 * c = ns.length + (i + 1) := ⟨2 * c - ns.length - 1, by omega⟩
    have hnibbles : nibblesOf (bytes.take c) = ns ++ 15 :: padding.take i := by
      have htake : (nibblesOf bytes).take (2 * c) = ((nibblesOf bytes).take 64).take (2 * c) := by
        rw [List.take_take, Nat.min_eq_left (by omega)]
      rw [nibblesOf_take, htake, hs, hi, List.take_length_add_append, List.take_succ_cons]
    have hpadding : (padding.take i).length ≤ 1 := (List.length_take_le ..).trans (by omega)
    have hshort : (bytes.take c).length ≤ maxBytes := by
      rw [hfront, maxBytes]
      omega
    have hn := nibbles_of_spelled hnibbles hf hpadding hshort (bytes.drop c)
    rw [List.take_append_drop] at hn
    exact ⟨_, _, (List.take_append_drop ..).symm, hfront, hn⟩

theorem decode_ended (h : Ended bytes ns) :
    Operand.decode .dict (30 :: bytes) =
      (need (parse? (ns.flatMap marks)) (.invalidOperandEncoding 30)).map fun x =>
        (.real x, 1 + (ns.length + 1) ⌈/⌉ 2) := by
  have ⟨front, rest, hb, hl, hn⟩ := h.nibbles_eq
  have hf : Operand.form? .dict 30 = some .real := rfl
  have hlen : bytes.length + 1 - rest.length = 1 + (ns.length + 1) ⌈/⌉ 2 := by
    rw [hb, List.length_append, hl]
    omega
  rw [Operand.decode, Operand.readFrom_of_form? hf, Operand.readForm, read]
  simp only [hn, bind, Except.bind]
  cases parse? (ns.flatMap marks) with
  | none   => rfl
  | some x => exact congrArg Except.ok (congrArg (Operand.real x, ·) hlen)

-- Without an end among the first 64 nibbles, the number of bytes tells what is wrong.
theorem decode_of_not_mem (h : 15 ∉ (nibblesOf bytes).take 64) :
    Operand.decode .dict (30 :: bytes) =
      .error (if 32 ≤ bytes.length then .invalidOperandEncoding 30 else .unexpectedEof) := by
  have hf : Operand.form? .dict 30 = some .real := rfl
  have hm : 15 ∉ nibblesOf (bytes.take maxBytes) := by rwa [nibblesOf_take]
  rw [Operand.decode, Operand.readFrom_of_form? hf, Operand.readForm, read, nibbles_of_not_mem hm,
    ← ite_not]
  simp only [Nat.not_lt]
  rfl

theorem ended_of_mem (h : 15 ∈ (nibblesOf bytes).take 64) : ∃ ns, Ended bytes ns := by
  have ⟨ns, _, hs, hf⟩ := List.eq_append_cons_of_mem h
  exact ⟨ns, .intro hs hf⟩

-- At most 32 bytes are looked at.
theorem decode_of_take_eq {bytes' : List UInt8} (h : bytes.take 32 = bytes'.take 32) :
    Operand.decode .dict (30 :: bytes) = Operand.decode .dict (30 :: bytes') := by
  have hn : (nibblesOf bytes).take 64 = (nibblesOf bytes').take 64 := by
    rw [← nibblesOf_take bytes 32, h, nibblesOf_take]
  by_cases hm : 15 ∈ (nibblesOf bytes).take 64
  case pos =>
    have ⟨ns, he⟩ := ended_of_mem hm
    have ⟨hs, hf⟩ := he
    rw [decode_ended he, decode_ended (.intro (hn ▸ hs) hf)]
  case neg =>
    have hl := congrArg List.length h
    rw [List.length_take, List.length_take] at hl
    have hlen : 32 ≤ bytes.length ↔ 32 ≤ bytes'.length := by omega
    rw [decode_of_not_mem hm, decode_of_not_mem (hn ▸ hm)]
    simp only [hlen]

-- The marks before the end are read where there are none of them, as zero, or where they are a
-- decimal number, and nowhere else. The whole last byte is used, and no byte but the first 32 is
-- looked at.
theorem decode_packed (bytes : List UInt8) :
    (∀ ns, Ended bytes ns → ∃ text, Written ns text ∧
      (text = [] → Operand.decode .dict (30 :: bytes) = .ok (.real 0, 1 + (ns.length + 1) ⌈/⌉ 2)) ∧
      (∀ s q, Decimal text s q →
        ∃ x, Operand.decode .dict (30 :: bytes) = .ok (.real x, 1 + (ns.length + 1) ⌈/⌉ 2) ∧
          Binary64.Rounds s q x) ∧
      (text ≠ [] → (∀ s q, ¬Decimal text s q) →
        Operand.decode .dict (30 :: bytes) = .error (.invalidOperandEncoding 30))) ∧
    (15 ∉ (nibblesOf bytes).take 64 →
      Operand.decode .dict (30 :: bytes) =
        .error (if 32 ≤ bytes.length then .invalidOperandEncoding 30 else .unexpectedEof)) ∧
    ∀ bytes', bytes.take 32 = bytes'.take 32 →
      Operand.decode .dict (30 :: bytes) = Operand.decode .dict (30 :: bytes') := by
  refine ⟨fun ns h => ⟨_, h.written, fun hnil => ?_, fun s q hq => ?_, fun hne hnone => ?_⟩,
    decode_of_not_mem, fun _ => decode_of_take_eq⟩
  case refine_1 =>
    rw [decode_ended h, hnil]
    rfl
  case refine_2 =>
    have ⟨x, hx, hr⟩ := parse?_of_decimal hq
    rw [decode_ended h, hx]
    exact ⟨x, rfl, hr⟩
  case refine_3 =>
    rw [decode_ended h]
    cases hx : parse? (ns.flatMap marks) with
    | none   => rfl
    | some x =>
      have ⟨s, q, hq⟩ := decimal_of_parse? h.written.isText hne hx
      exact absurd hq (hnone s q)

theorem decode_packed_marks :
    (∃ x, Operand.decode .dict [30, 0xe2, 0xa2, 0x5f, 139] = .ok (.real x, 4) ∧
      Binary64.value? x = some (-9 / 4)) ∧
    Operand.decode .dict [30, 0xdf] = .ok (.real 0, 2) ∧
    Operand.decode .dict [30, 0xee, 0xf0] = .error (.invalidOperandEncoding 30) ∧
    Operand.decode .dict [30, 0x12] = .error .unexpectedEof := by
  refine ⟨?_, ?_, ?_, ?_⟩
  case refine_1 =>
    have he : Ended [0xe2, 0xa2, 0x5f, 139] [14, 2, 10, 2, 5] := .intro rfl (by decide)
    obtain ⟨text, hw, -, hdecimal, -⟩ := (decode_packed _).left _ he
    rw [hw.eq_flatMap] at hdecimal
    have hm : Mantissa ([2].map .digit ++ .point :: [2, 5].map .digit) _ :=
      .closed (by simp [AreDigits]) (by simp [AreDigits]) (by decide)
    have hd := Decimal.negative hm .none
    obtain ⟨x, hx, hr⟩ := hdecimal _ _ hd
    refine ⟨x, hx, ?_⟩
    have hq : ((number [2] + number [2, 5] / 10 ^ [2, 5].length) * 10 ^ (0 : ℤ) : ℚ) = 9 / 4 := by
      norm_num [number, Nat.ofDigits]
    rw [hq] at hr
    have hh := Binary64.holds (m := 9) (e := -2) .negative (by decide) (by decide) (by decide)
    have heq : ((9 : ℕ) * 2 ^ (-2 : ℤ) : ℚ) = 9 / 4 := by norm_num [zpow_neg]
    rw [(hr.isSigned (heq ▸ hh)).value]
    norm_num [side]
  case refine_2 =>
    have he : Ended [0xdf] [13] := .intro rfl (by decide)
    obtain ⟨text, hw, hzero, -⟩ := (decode_packed _).left _ he
    exact hzero hw.eq_flatMap
  case refine_3 =>
    have he : Ended [0xee, 0xf0] [14, 14] := .intro rfl (by decide)
    obtain ⟨text, hw, -, -, hnone⟩ := (decode_packed _).left _ he
    rw [hw.eq_flatMap] at hnone
    refine hnone (by decide) fun s q hq => ?_
    obtain ⟨x, hx, -⟩ := parse?_of_decimal hq
    cases hx
  case refine_4 => exact (decode_packed _).right.left (by decide)

end Decoding

end PdfGraphics.Cff.PackedReal
