import PdfGraphics.Proofs.Bytes.Bits
import PdfGraphics.Proofs.Function.Reading
/-!
The samples of a sampled function.

Samples are the digits of the number that the data spell, to a base that is a power of two, from the
most significant digit on. Data is accepted when it has as many samples as the grid has points, for
each of the outputs.
-/

namespace PdfGraphics.Function

open Bytes (bits bitsOf value)

section Unpack

variable {data : List UInt8} {width : Nat}

-- The samples of `width` bits in front of the data, none of them altered or left out.
structure Unpacks (data : List UInt8) (width count : Nat) (samples : Array Nat) : Prop where
  size   : samples.size = count
  sample : ∀ i < count, samples[i]? =
    some (value data / 2 ^ (8 * data.length - width * (i + 1)) % 2 ^ width)
  le     : ∀ v ∈ samples, v ≤ 2 ^ width - 1
  packed : samples.toList.flatMap (bits width) = (bitsOf data).take (width * count)

theorem bitAt_eq {i : Nat} (h : i < 8 * data.length) :
    bitAt data.toArray i = value data / 2 ^ (8 * data.length - (i + 1)) % 2 := by
  have ⟨b, hb, hv⟩ := Bytes.getElem?_eq_value (show i / 8 < data.length by omega)
  have hd : data.toArray.getD (i / 8) 0 = b := by simp [Array.getD_eq_getD_getElem?, hb]
  have hm : 256 = 2 ^ (7 - i % 8) * (2 * 2 ^ (i % 8)) := by
    rw [← Nat.pow_succ', ← Nat.pow_add, show 7 - i % 8 + (i % 8 + 1) = 8 by omega]
  have he : 8 * data.length - (i + 1) = 8 * (data.length - 1 - i / 8) + (7 - i % 8) := by omega
  calc
    bitAt data.toArray i
      = value data / 256 ^ (data.length - 1 - i / 8) % 256 / 2 ^ (7 - i % 8) % 2 := by
      rw [bitAt, hd, hv, Nat.shiftRight_eq_div_pow]
    _ = value data / 256 ^ (data.length - 1 - i / 8) / 2 ^ (7 - i % 8) % 2 := by
      generalize value data / 256 ^ (data.length - 1 - i / 8) = n
      rw [hm, Nat.mod_mul_right_div_self, Nat.mod_mul_right_mod]
    _ = value data / 2 ^ (8 * data.length - (i + 1)) % 2 := by
      rw [he, Nat.pow_add, Nat.pow_mul, ← Nat.div_div_eq_div_mul]

-- Bits that are taken one after the other are those of a quotient.
theorem foldl_bitAt {start : Nat} (h : start + width ≤ 8 * data.length) :
    (List.range width).foldl (fun v k => 2 * v + bitAt data.toArray (start + k)) 0 =
      value data / 2 ^ (8 * data.length - (start + width)) % 2 ^ width := by
  induction width with
  | zero          => simp [Nat.mod_one]
  | succ width ih =>
    have he : 8 * data.length - (start + width) = 8 * data.length - (start + (width + 1)) + 1 := by
      omega
    rw [List.range_succ, List.foldl_append, ih (by omega), List.foldl_cons, List.foldl_nil,
      bitAt_eq (by omega), he, Nat.pow_succ, ← Nat.div_div_eq_div_mul, Nat.pow_succ',
      Nat.mod_mul, Nat.add_comm]
    rfl

theorem sampleAt_eq {i : Nat} (h : width * (i + 1) ≤ 8 * data.length) :
    sampleAt data.toArray width i =
      value data / 2 ^ (8 * data.length - width * (i + 1)) % 2 ^ width :=
  foldl_bitAt h

theorem getElem?_unpack {count i : Nat} (h : i < count) (hc : width * count ≤ 8 * data.length) :
    (unpack data width count)[i]? =
      some (value data / 2 ^ (8 * data.length - width * (i + 1)) % 2 ^ width) := by
  have hi : width * (i + 1) ≤ 8 * data.length := Nat.le_trans (Nat.mul_le_mul_left _ h) hc
  simp [unpack, h, sampleAt_eq hi]

theorem flatMap_unpack {count : Nat} (hc : width * count ≤ 8 * data.length) :
    (unpack data width count).toList.flatMap (bits width) =
      (bitsOf data).take (width * count) := by
  have hb : bitsOf data =
      bits (width * count + (8 * data.length - width * count)) (value data) := by
    rw [Bytes.bitsOf_eq, Nat.add_sub_cancel' hc]
  rw [hb, Bytes.take_bits]
  clear hb
  induction count with
  | zero          => simp [unpack, bits]
  | succ count ih =>
    have hw : width * count + width ≤ 8 * data.length := hc
    have hu : (unpack data width (count + 1)).toList =
        (unpack data width count).toList ++ [sampleAt data.toArray width count] := by
      simp [unpack, Array.range_succ]
    have he : 8 * data.length - width * count =
        8 * data.length - width * (count + 1) + width := by
      rw [Nat.mul_succ]
      omega
    rw [hu, List.flatMap_append, ih (by omega), sampleAt_eq hc, List.flatMap_singleton,
      Bytes.bits_mod, Nat.mul_succ, Bytes.bits_add, ← Nat.mul_succ, he, Nat.pow_add,
      Nat.div_div_eq_div_mul]

theorem unpacks_unpack {count : Nat} (h : width * count ≤ 8 * data.length) :
    Unpacks data width count (unpack data width count) where
  size          := by simp [unpack]
  sample i hi   := getElem?_unpack hi h
  le v hv       := by
    obtain ⟨i, hi⟩ := Array.mem_iff_getElem?.mp hv
    have hc : i < count := by
      by_contra hc
      simp [unpack, hc] at hi
    have he := Option.some.inj ((getElem?_unpack hc h).symm.trans hi)
    have hlt := Nat.mod_lt (value data / 2 ^ (8 * data.length - width * (i + 1)))
      (Nat.two_pow_pos width)
    omega
  packed        := flatMap_unpack h

end Unpack

section Acceptance

variable {α : Type} [AnalyticScalar α] {entries : FunctionDict.Entries α}
variable {functions : Option (List (FunctionDict α))} {inputs outputs : List (Span α)}
variable {sizes : List Nat} {width : Nat} {data : List UInt8} {table : Sampled α}

theorem intervals_ends (key : FunctionKey) {spans : List (Span α)} (hn : spans ≠ [])
    (ho : ∀ s ∈ spans, s.lo ≤ s.hi) : intervals key (ends spans) = .ok spans := by
  have hp : pairs (ends spans) = spans.map fun s => (s.lo, s.hi) := by
    rw [ends_eq_flat, pairs_flat]
  have hl : (ends spans).length = 2 * spans.length := by
    rw [ends_eq_flat, length_flat, List.length_map]
  have hne : ends spans ≠ [] := by
    intro he
    rw [he, List.length_nil] at hl
    exact hn (List.length_eq_zero_iff.mp (by omega))
  simp only [intervals, bind_eq_ok, refuse_eq_ok, hp]
  refine ⟨(), by simp [hne, hl], (), by simpa using ho, ?_⟩
  simp [pure, Except.pure, Function.comp_def]

-- The dictionary of a sampled function in which all is in order, but for the amount of data.
structure Sampled.Fits (entries : FunctionDict.Entries α) (inputs outputs : List (Span α))
    (sizes : List Nat) (width : Nat) : Prop where
  functionType : entries.functionType = some 0
  domain       : entries.domain = some (ends inputs)
  range        : entries.range = some (ends outputs)
  nonempty     : inputs ≠ [] ∧ outputs ≠ []
  ordered      : ∀ s ∈ inputs ++ outputs, s.lo ≤ s.hi
  size         : entries.size = some sizes
  axes         : sizes.length = inputs.length
  points       : 0 ∉ sizes
  bits         : entries.bitsPerSample = some width
  supported    : width ∈ supportedBits
  order        : ∀ order, entries.order = some order → order = 1 ∨ order = 3
  encode       : ∀ encode, entries.encode = some encode → encode.length = 2 * inputs.length
  decode       : ∀ decode, entries.decode = some decode → decode.length = 2 * outputs.length

namespace Sampled.Fits

theorem ofDict_eq (h : Fits entries inputs outputs sizes width) :
    ofDict ⟨entries, functions⟩ =
      (ofEntries entries inputs (some outputs)).map Function.sampled := by
  have hd := intervals_ends .domain h.nonempty.left fun s hs =>
    h.ordered s (List.mem_append_left _ hs)
  have hr := intervals_ends .range h.nonempty.right fun s hs =>
    h.ordered s (List.mem_append_right _ hs)
  rw [ofDict, h.functionType, h.domain, h.range]
  simp only [need, Option.elim, bind, Except.bind, Kind.ofType, hd, Option.mapM_some, hr]
  have hm : some <$> (Except.ok outputs : Except EvalError _) = .ok (some outputs) := rfl
  simp only [hm]
  cases ofEntries entries inputs (some outputs) <;> rfl

theorem length_encodeOf (h : Fits entries inputs outputs sizes width) :
    (encodeOf entries sizes).length = 2 * inputs.length := by
  unfold encodeOf
  cases he : entries.encode with
  | none        =>
    have hf := length_flat (sizes.map fun n => ((Scalar.zero : α), Scalar.ofNat n - Scalar.one))
    rw [flat, List.flatMap_map, List.length_map, h.axes] at hf
    exact hf
  | some encode => exact h.encode encode he

theorem length_decode (h : Fits entries inputs outputs sizes width) :
    (entries.decode.getD (ends outputs)).length = 2 * outputs.length := by
  cases he : entries.decode with
  | none        => simp [ends_eq_flat, length_flat]
  | some decode => exact h.decode decode he

-- Such a dictionary makes a table just where its data is enough.
theorem ofEntries_eq_ok (h : Fits entries inputs outputs sizes width)
    (hs : entries.samples = some data) :
    (∃ table, ofEntries entries inputs (some outputs) = .ok table) ↔
      outputs.length * sizes.prod ≤ availableSamples data width := by
  simp only [ofEntries, bind_eq_ok, need_eq_ok, refuse_eq_ok, foldl_mul]
  constructor
  · rintro ⟨table, spans, hspans, sizes', hsizes, bits, hbits, _, _, _, _, data', hdata, _, _, _, _,
      _, _, _, _, _, _, _, hav, _⟩
    cases hspans
    cases h.size.symm.trans hsizes
    cases h.bits.symm.trans hbits
    cases hs.symm.trans hdata
    simpa using hav
  · intro hc
    have hlt : availableSamples data width < UInt64.size := by
      unfold availableSamples
      have := Nat.div_le_self (min (8 * data.length) (UInt64.size - 1)) width
      have : 0 < UInt64.size := by decide
      omega
    have ho : (entries.order.getD 1 != 1 && entries.order.getD 1 != 3) = false := by
      cases ho : entries.order with
      | none       => rfl
      | some order => rcases h.order order ho with rfl | rfl <;> rfl
    refine ⟨_, outputs, rfl, sizes, h.size, width, h.bits, (), ?_, (), ho, data, hs, (), ?_, (), ?_,
      (), ?_, (), ?_, (), ?_, (), ?_, rfl⟩
    · simpa using h.supported
    · simpa using h.axes
    · simpa using h.points
    · simpa using h.length_encodeOf
    · simpa [ends] using h.length_decode
    · simpa using Nat.lt_of_le_of_lt hc hlt
    · simpa using hc

end Sampled.Fits

theorem kind_ofType_sampled {type : Int} (h : Kind.ofType type = .ok .sampled) : type = 0 := by
  unfold Kind.ofType at h
  split at h
  case h_1 => rfl
  all_goals cases h

-- A sampled function that was made has a dictionary in order, and a table of all its samples.
theorem fits_of_ofDict (h : ofDict ⟨entries, functions⟩ = .ok (.sampled table)) :
    ∃ inputs outputs sizes width data, Sampled.Fits entries inputs outputs sizes width ∧
      entries.samples = some data ∧
      outputs.length * sizes.prod ≤ availableSamples data width ∧
      table.maxSample = 2 ^ width - 1 ∧
      table.samples = unpack data width (outputs.length * sizes.prod) := by
  rw [ofDict] at h
  simp only [bind_eq_ok, need_eq_ok] at h
  obtain ⟨type, htype, kind, hkind, values, hvalues, inputs, hi, range, hr, h⟩ := h
  obtain ⟨hin, hd, hio⟩ := intervals_eq_ok hi
  have hr := rangeRead_of_mapM hr
  cases kind with
  | exponential =>
    obtain ⟨_, _, he⟩ := bind_eq_ok.mp h
    cases he
  | stitching   =>
    obtain ⟨span, hs, h⟩ := bind_eq_ok.mp h
    cases functions with
    | none       => cases h
    | some dicts =>
      obtain ⟨_, _, h⟩ := bind_eq_ok.mp h
      have hd : entries.domain = some (ends [span]) := by
        rw [hvalues, hd, onlyInput_eq_ok.mp hs]
      obtain ⟨_, hf, _⟩ := of_stitch hd hr h
      cases hf
  | sampled     =>
    obtain ⟨_, ht, he⟩ := bind_eq_ok.mp h
    cases he
    simp only [Sampled.ofEntries, bind_eq_ok, need_eq_ok, refuse_eq_ok, Sampled.foldl_mul] at ht
    obtain ⟨outputs, hout, sizes, hsizes, bits, hbits, _, hsup, _, hord, data, hdata, _, hlen, _,
      hzero, _, henc, _, hdec, _, _, _, hav, ht⟩ := ht
    cases ht
    cases hout
    refine ⟨inputs, outputs, sizes, bits, data, ?_, hdata, by simpa using hav, ?_, rfl⟩
    case refine_1 => exact {
      functionType := by rw [htype, kind_ofType_sampled hkind]
      domain       := by rw [hvalues, hd]
      range        := hr.entry
      nonempty     := ⟨hin, hr.nonempty outputs rfl⟩
      ordered      := fun s hs => (List.mem_append.mp hs).elim (hio s) (hr.ordered outputs rfl s)
      size         := hsizes
      axes         := by simpa using hlen
      points       := by simpa using hzero
      bits         := hbits
      supported    := by simpa using hsup
      order        := fun order ho => by simpa [ho, or_iff_not_imp_left] using hord
      encode       := fun encode he => by simpa [Sampled.encodeOf, he] using henc
      decode       := fun decode hd => by simpa [hd] using hdec
    }
    case refine_2 => simp [Nat.shiftLeft_eq]

theorem availableSamples_eq (h : 8 * data.length < UInt64.size) :
    availableSamples data width = 8 * data.length / width := by
  rw [availableSamples, Nat.min_eq_left (by omega)]

theorem mul_le_of_available {count : Nat} (h : count ≤ availableSamples data width) :
    width * count ≤ 8 * data.length := by
  calc
    width * count ≤ width * (min (8 * data.length) (UInt64.size - 1) / width) :=
      Nat.mul_le_mul_left _ h
    _ ≤ min (8 * data.length) (UInt64.size - 1) := Nat.mul_div_le ..
    _ ≤ 8 * data.length := Nat.min_le_left ..

-- The samples that are read from data are the first digits of its number. A dictionary that is
-- otherwise in order makes a function just where its data has a sample for each output at each
-- point of the grid. The table of a function that was made holds all of these samples.
theorem unpack_exact :
    (∀ (data : List UInt8) (width count : Nat), width * count ≤ 8 * data.length →
      Unpacks data width count (unpack data width count)) ∧
    (∀ (entries : FunctionDict.Entries α) (functions : Option (List (FunctionDict α)))
        (inputs outputs : List (Span α)) (sizes : List Nat) (width : Nat) (data : List UInt8),
      Sampled.Fits entries inputs outputs sizes width → entries.samples = some data →
      ((∃ f, ofDict ⟨entries, functions⟩ = .ok f) ↔
        outputs.length * sizes.prod ≤ availableSamples data width) ∧
      (8 * data.length < UInt64.size →
        ((∃ f, ofDict ⟨entries, functions⟩ = .ok f) ↔
          outputs.length * sizes.prod ≤ 8 * data.length / width))) ∧
    ∀ (entries : FunctionDict.Entries α) (functions : Option (List (FunctionDict α)))
        (table : Sampled α), ofDict ⟨entries, functions⟩ = .ok (.sampled table) →
      ∃ inputs outputs sizes width data, Sampled.Fits entries inputs outputs sizes width ∧
        entries.samples = some data ∧ table.maxSample = 2 ^ width - 1 ∧
        Unpacks data width (outputs.length * sizes.prod) table.samples := by
  refine ⟨fun _ _ _ => unpacks_unpack, ?_, ?_⟩
  case refine_1 =>
    intro entries functions inputs outputs sizes width data hf hs
    have he : (∃ f, ofDict ⟨entries, functions⟩ = .ok f) ↔
        outputs.length * sizes.prod ≤ availableSamples data width := by
      rw [← hf.ofEntries_eq_ok hs, hf.ofDict_eq]
      simp only [map_eq_ok]
      exact ⟨fun ⟨_, table, ht, _⟩ => ⟨table, ht⟩, fun ⟨table, ht⟩ => ⟨_, table, ht, rfl⟩⟩
    exact ⟨he, fun hl => availableSamples_eq hl ▸ he⟩
  case refine_2 =>
    intro entries functions table h
    have ⟨inputs, outputs, sizes, width, data, hf, hs, hc, hm, ht⟩ := fits_of_ofDict h
    exact ⟨inputs, outputs, sizes, width, data, hf, hs, hm,
      ht ▸ unpacks_unpack (mul_le_of_available hc)⟩

-- Two samples of twelve bits, of which the second begins within a byte.
def twelveBits (data : List UInt8) : FunctionDict.Entries Float32 where
  functionType := some 0
  domain := some [0, 1]
  range := some [0, 1]
  size := some [2]
  bitsPerSample := some 12
  samples := some data

theorem unpack_exact_twelveBits :
    Unpacks [0x12, 0x34, 0x56] 12 2 #[0x123, 0x456] ∧
    (∃ f, ofDict ⟨twelveBits [0x12, 0x34, 0x56], none⟩ = .ok f) ∧
    (¬∃ f, ofDict ⟨twelveBits [0x12, 0x34], none⟩ = .ok f) ∧
    ∃ table, ofDict ⟨twelveBits [0x12, 0x34, 0x56], none⟩ = .ok (.sampled table) ∧
      ∃ width count, Unpacks [0x12, 0x34, 0x56] width count table.samples := by
  have fits (data : List UInt8) :
      Sampled.Fits (twelveBits data) [⟨0, 1⟩] [⟨0, 1⟩] [2] 12 := {
    functionType := rfl
    domain       := rfl
    range        := rfl
    nonempty     := by decide
    ordered      := by decide
    size         := rfl
    axes         := rfl
    points       := by decide
    bits         := rfl
    supported    := by decide
    order        := nofun
    encode       := nofun
    decode       := nofun
  }
  have ⟨hu, ha, ht⟩ := @unpack_exact Float32 _
  have ⟨f, hf⟩ := ((ha _ none _ _ _ _ _ (fits [0x12, 0x34, 0x56]) rfl).right (by decide)).mpr
    (by decide)
  have hs : unpack [0x12, 0x34, 0x56] 12 2 = #[0x123, 0x456] := by decide +kernel
  refine ⟨hs ▸ hu [0x12, 0x34, 0x56] 12 2 (by decide), ⟨f, hf⟩, ?_, ?_⟩
  case refine_1 =>
    intro hs
    exact absurd (((ha _ none _ _ _ _ _ (fits [0x12, 0x34]) rfl).right (by decide)).mp hs)
      (by decide)
  case refine_2 =>
    rw [(fits _).ofDict_eq] at hf
    have ⟨table, _, he⟩ := map_eq_ok.mp hf
    have ho : ofDict ⟨twelveBits [0x12, 0x34, 0x56], none⟩ = .ok (.sampled table) := by
      rw [(fits _).ofDict_eq, he, hf]
    have ⟨_, outputs, sizes, width, _, _, hs, _, hu⟩ := ht _ _ _ ho
    cases hs
    exact ⟨table, ho, width, _, hu⟩

end Acceptance

end PdfGraphics.Function
