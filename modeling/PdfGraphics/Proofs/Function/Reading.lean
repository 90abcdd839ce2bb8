import PdfGraphics.Proofs.Function.Entries
import PdfGraphics.Proofs.Function.Grid
import PdfGraphics.Proofs.Function.Pieces
/-!
What reading a function establishes.

A function that was read holds its dictionary's lists, none of them cut short, and passed the checks
that evaluating it relies on. So do the functions that it is stitched from, at any depth.
-/

namespace PdfGraphics.Function

section Sampled

variable {α : Type} {entries : FunctionDict.Entries α} {domain : List (Span α)}
variable {range : Option (List (Span α))}

theorem Sampled.map_axes {encodes : List (α × α)} {sizes : List Nat} {axes : List (Axis α)}
    (he : encodes.length = domain.length) (hs : sizes.length = domain.length)
    (ha : axes = List.zipWith (fun (domain, encode) size => { domain, encode, size })
      (domain.zip encodes) sizes) :
    axes.map (·.size) = sizes ∧ axes.map (·.domain) = domain ∧ axes.map (·.encode) = encodes := by
  have hz : (domain.zip encodes).length = domain.length := by
    rw [List.length_zip, he, Nat.min_self]
  have hf : ((domain.zip encodes).zip sizes).map (·.1) = domain.zip encodes :=
    List.map_fst_zip (by omega)
  rw [ha, ← List.map_uncurry_zip_eq_zipWith, List.map_map, List.map_map, List.map_map]
  refine ⟨List.map_snd_zip (by omega), ?_, ?_⟩
  case _ =>
    conv => rhs; rw [← List.map_fst_zip (Nat.le_of_eq he.symm), ← hf, List.map_map]
    rfl
  case _ =>
    conv => rhs; rw [← List.map_snd_zip (Nat.le_of_eq he), ← hf, List.map_map]
    rfl

theorem Sampled.map_channels {spans : List (Span α)} {decodes : List (α × α)}
    {channels : List (Channel α)} (hd : decodes.length = spans.length)
    (hc : channels = List.zipWith Channel.mk spans decodes) :
    channels.map (·.range) = spans ∧ channels.map (·.decode) = decodes := by
  rw [hc, ← List.map_uncurry_zip_eq_zipWith, List.map_map, List.map_map]
  exact ⟨List.map_fst_zip (by omega), List.map_snd_zip (by omega)⟩

theorem Sampled.foldl_mul (n : Nat) (sizes : List Nat) :
    sizes.foldl (· * ·) n = n * sizes.prod := by
  induction sizes generalizing n with
  | nil                => exact (Nat.mul_one n).symm
  | cons size sizes ih => rw [List.foldl_cons, ih, List.prod_cons, Nat.mul_assoc]

variable [Scalar α]

-- The table has an axis for each interval of Domain and entry of Size, and a channel for each
-- interval of Range. Encode and Decode have a pair of numbers for each of them.
structure Sampled.Holds (table : Sampled α) (entries : FunctionDict.Entries α) : Prop where
  size : entries.size = some (table.axes.map (·.size))
  domain : entries.domain = some (ends (table.axes.map (·.domain)))
  encode : encodeOf entries (table.axes.map (·.size)) = flat (table.axes.map (·.encode))
  range : entries.range = some (ends (table.channels.map (·.range)))
  decode : entries.decode.getD (ends (table.channels.map (·.range))) =
    flat (table.channels.map (·.decode))
  ordered : ∀ s ∈ table.channels.map (·.range), s.lo ≤ s.hi

theorem Sampled.of_ofEntries {table : Sampled α} (hd : entries.domain = some (ends domain))
    (hr : RangeRead entries range) (h : ofEntries entries domain range = .ok table) :
    table.Filled ∧ table.Holds entries := by
  simp only [ofEntries, bind_eq_ok, need_eq_ok, refuse_eq_ok] at h
  have ⟨spans, hspans, sizes, hsizes, bits, _, _, _, _, _, data, _, _, hlen, _, hzero, _, henc, _,
    hdec, _, hword, _, _, h⟩ := h
  have hlen := bne_eq_false_iff_eq.mp hlen
  have henc := bne_eq_false_iff_eq.mp henc
  have hdec := bne_eq_false_iff_eq.mp hdec
  have ht := (Except.ok.inj h).symm
  have ⟨hs, hdom, he⟩ := map_axes (length_pairs henc) hlen (congrArg Sampled.axes ht)
  have ⟨hrange, hdecode⟩ := map_channels (length_pairs hdec) (congrArg Sampled.channels ht)
  have hn : table.channels.length = spans.length := by rw [← hrange, List.length_map]
  have hcount : table.samples.size = spans.length * sizes.prod := by
    rw [congrArg Sampled.samples ht, unpack, Array.size_map, Array.size_range, foldl_mul]
  constructor
  case left => exact {
    axes := fun a ha hz => by
      have hm : a.size ∈ sizes := hs ▸ List.mem_map_of_mem ha
      rw [hz] at hm
      simp [hm] at hzero
    channels := by
      rw [hn]
      exact Nat.ne_of_gt (List.length_pos_of_ne_nil (hr.nonempty spans hspans))
    samples := by rw [hn, hs, hcount]
    addressable := by
      rw [hcount, ← foldl_mul]
      exact Nat.lt_of_not_le (of_decide_eq_false hword)
  }
  case right => exact {
    size := by rw [hs, hsizes]
    domain := by rw [hdom, hd]
    encode := by rw [hs, he, flat_pairs (by omega)]
    range := by rw [hrange, hr.entry, hspans]; rfl
    decode := by rw [hrange, hdecode, flat_pairs (by omega)]; rfl
    ordered := hrange ▸ hr.ordered spans hspans
  }

end Sampled

-- Each function that was read has a dictionary of its own.
theorem mem_zip_of_mem {α : Type} {dicts : List (FunctionDict α)} {fs : List (Function α)}
    {f : Function α} (hl : dicts.length = fs.length) (hf : f ∈ fs) :
    ∃ d, (d, f) ∈ dicts.zip fs := by
  rw [← List.map_snd_zip (Nat.le_of_eq hl.symm)] at hf
  have ⟨⟨d, _⟩, hm, he⟩ := List.mem_map.mp hf
  exact ⟨d, he ▸ hm⟩

variable {α : Type} [AnalyticScalar α]

-- The coefficients are all of those in C0 and C1.
structure Exponential.Holds (law : Exponential α) (entries : FunctionDict.Entries α) : Prop where
  domain : entries.domain = some (ends [law.domain])
  range : entries.range = law.range.map ends
  c₀ : entries.c₀.getD [Scalar.zero] = law.coefficients.map (·.1)
  c₁ : entries.c₁.getD [Scalar.one] = law.coefficients.map (·.2)
  exponent : entries.exponent = some law.exponent
  fits : RangeFits law.range law.coefficients.length

-- The pieces take all of Bounds and Encode, and their functions fit together.
structure StitchHolds (span : Span α) (spans : Option (List (Span α))) (pieces : Pieces α)
    (entries : FunctionDict.Entries α) : Prop where
  domain : entries.domain = some (ends [span])
  range : entries.range = spans.map ends
  bounds : entries.bounds = some pieces.bounds
  encode : entries.encode = some (flat pieces.encodes)
  inputs : ∀ f ∈ pieces.functions, f.inputCount = 1
  outputs : ∀ f ∈ pieces.functions, f.outputCount = piecesOutputCount pieces
  fits : RangeFits spans (piecesOutputCount pieces)

section Readers

variable {entries : FunctionDict.Entries α} {range : Option (List (Span α))}

theorem Exponential.of_ofEntries {domain : List (Span α)} {law : Exponential α}
    (hd : entries.domain = some (ends domain)) (hr : RangeRead entries range)
    (h : ofEntries entries domain range = .ok law) : law.Holds entries := by
  simp only [ofEntries, bind_eq_ok, need_eq_ok, refuse_eq_ok, onlyInput_eq_ok] at h
  have ⟨exponent, hexp, d, hdom, _, hc, h⟩ := h
  have hc := bne_eq_false_iff_eq.mp hc
  have ⟨hn, h⟩ := checkRange_eq_ok.mp h
  simp only [bind_eq_ok, refuse_eq_ok] at h
  have ⟨_, _, _, _, h⟩ := h
  cases h
  exact {
    domain := by rw [hd, hdom]
    range := hr.entry
    c₀ := (List.map_fst_zip (Nat.le_of_eq hc)).symm
    c₁ := (List.map_snd_zip (Nat.le_of_eq hc.symm)).symm
    exponent := hexp
    fits := fun spans hs =>
      ⟨by rw [hn spans hs, List.length_zip, ← hc, Nat.min_self], hr.ordered spans hs⟩
  }

theorem of_stitch {domain : Span α} {functions : List (Function α)} {f : Function α}
    (hd : entries.domain = some (ends [domain])) (hr : RangeRead entries range)
    (h : stitch entries domain range functions = .ok f) :
    ∃ pieces, f = .stitched domain range pieces ∧ pieces.functions = functions ∧
      StitchHolds domain range pieces entries := by
  simp only [stitch, bind_eq_ok, need_eq_ok] at h
  have ⟨bounds, hb, encode, henc, h⟩ := h
  cases functions with
  | nil               => cases h
  | cons first others =>
    simp only [bind_eq_ok, refuse_eq_ok] at h
    have ⟨_, hlb, _, hle, _, hin, _, hout, h⟩ := h
    have ⟨hn, h⟩ := checkRange_eq_ok.mp h
    simp only [bind_eq_ok, refuse_eq_ok] at h
    have ⟨_, _, _, _, h⟩ := h
    have hlb : bounds.length = others.length := bne_eq_false_iff_eq.mp hlb
    have hle := bne_eq_false_iff_eq.mp hle
    cases he : pairs encode with
    | nil                  =>
      rw [he] at h
      cases h
    | cons encode₁ encodes =>
      rw [he] at h
      cases h
      have hl : encodes.length = others.length := by
        have hlp := length_pairs hle
        rw [he] at hlp
        exact Nat.succ.inj hlp
      have ⟨hfs, hes, hbs⟩ := Pieces.lists_chain encode₁ first hl hlb
      refine ⟨_, rfl, hfs, ?_⟩
      exact {
        domain := hd
        range := hr.entry
        bounds := by rw [hb, hbs]
        encode := by rw [henc, hes, ← he, flat_pairs (by omega)]
        inputs := fun f hf => by
          rw [hfs] at hf
          simpa using List.any_eq_false.mp hin f hf
        outputs := fun f hf => by
          rw [hfs] at hf
          rw [Pieces.outputCount_chain]
          simpa using List.any_eq_false.mp hout f hf
        fits := fun spans hs =>
          ⟨by rw [hn spans hs, Pieces.outputCount_chain], hr.ordered spans hs⟩
      }

theorem of_ofDicts {dicts : List (FunctionDict α)} {fs : List (Function α)}
    (h : ofDicts dicts = .ok fs) :
    dicts.length = fs.length ∧ ∀ p ∈ dicts.zip fs, ofDict p.1 = .ok p.2 := by
  induction dicts generalizing fs with
  | nil             =>
    rw [ofDicts] at h
    cases h
    exact ⟨rfl, nofun⟩
  | cons d dicts ih =>
    simp only [ofDicts, bind_eq_ok] at h
    have ⟨f, hf, fs', hfs, he⟩ := h
    cases he
    have ⟨hl, hp⟩ := ih hfs
    exact ⟨congrArg Nat.succ hl, List.forall_mem_cons.mpr ⟨hf, hp⟩⟩

-- What each of the three types leaves of a dictionary.
theorem of_ofDict {dicts? : Option (List (FunctionDict α))} {f : Function α}
    (h : ofDict ⟨entries, dicts?⟩ = .ok f) :
    (∃ table, f = .sampled table ∧ table.Filled ∧ table.Holds entries) ∨
    (∃ law, f = .exponential law ∧ law.Holds entries) ∨
    ∃ dicts domain range pieces, dicts? = some dicts ∧ f = .stitched domain range pieces ∧
      ofDicts dicts = .ok pieces.functions ∧ StitchHolds domain range pieces entries := by
  rw [ofDict] at h
  simp only [bind_eq_ok, need_eq_ok] at h
  have ⟨_, _, kind, _, _, hd, domain, hi, range, hr, h⟩ := h
  have ⟨_, he, _⟩ := intervals_eq_ok hi
  have hr := rangeRead_of_mapM hr
  rw [he] at hd
  cases kind with
  | sampled     =>
    have ⟨table, ht, hf⟩ := bind_eq_ok.mp h
    cases hf
    exact .inl ⟨table, rfl, Sampled.of_ofEntries hd hr ht⟩
  | exponential =>
    have ⟨law, hl, hf⟩ := bind_eq_ok.mp h
    cases hf
    exact .inr (.inl ⟨law, rfl, Exponential.of_ofEntries hd hr hl⟩)
  | stitching   =>
    simp only [bind_eq_ok, onlyInput_eq_ok] at h
    have ⟨span, hs, h⟩ := h
    cases dicts? with
    | none       => cases h
    | some dicts =>
      have ⟨fs, hfs, h⟩ := bind_eq_ok.mp h
      have ⟨pieces, hf, hp, hholds⟩ := of_stitch (hs ▸ hd) hr h
      exact .inr (.inr ⟨dicts, span, range, pieces, rfl, hf, hp ▸ hfs, hholds⟩)

end Readers

-- A function with all that a dictionary says, and stitched from functions that the dictionaries in
-- it describe.
inductive Describes : FunctionDict α → Function α → Prop
  | sampled {entries : FunctionDict.Entries α} {functions : Option (List (FunctionDict α))}
      {table : Sampled α} (filled : table.Filled) (holds : table.Holds entries) :
      Describes ⟨entries, functions⟩ (.sampled table)
  | exponential {entries : FunctionDict.Entries α} {functions : Option (List (FunctionDict α))}
      {law : Exponential α} (holds : law.Holds entries) :
      Describes ⟨entries, functions⟩ (.exponential law)
  | stitched {entries : FunctionDict.Entries α} {dicts : List (FunctionDict α)} {domain : Span α}
      {range : Option (List (Span α))} {pieces : Pieces α}
      (holds : StitchHolds domain range pieces entries)
      (count : dicts.length = pieces.functions.length)
      (parts : ∀ p ∈ dicts.zip pieces.functions, Describes p.1 p.2) :
      Describes ⟨entries, some dicts⟩ (.stitched domain range pieces)

theorem describes_of_ofDict {f : Function α} : {d : FunctionDict α} → ofDict d = .ok f →
    Describes d f
  | ⟨entries, dicts?⟩, h =>
    match of_ofDict h with
    | .inl ⟨_, hf, hfilled, hholds⟩ => hf ▸ .sampled hfilled hholds
    | .inr (.inl ⟨_, hf, hholds⟩) => hf ▸ .exponential hholds
    | .inr (.inr ⟨_, _, _, _, hd, hf, hfs, hholds⟩) => by
      have ⟨hl, hparts⟩ := of_ofDicts hfs
      rw [hd, hf]
      refine .stitched hholds hl fun p hm => ?_
      have hs := List.sizeOf_lt_of_mem (List.of_mem_zip hm).left
      exact describes_of_ofDict (hparts p hm)
termination_by d => sizeOf d
decreasing_by
  simp only [FunctionDict.mk.sizeOf_spec, hd, Option.some.sizeOf_spec]
  omega

end PdfGraphics.Function
