import PdfGraphics.Proofs.Function.Evaluation
/-!
The entries that a function is read from.

Its type decides which entries of a dictionary count. Whatever the others say, here or in a function
stitched into this one, reading gives the same function or the same error.
-/

namespace PdfGraphics

namespace FunctionDict

variable {α : Type}

namespace Entries

-- What counts for every type.
structure SameShape (a b : Entries α) : Prop where
  functionType : a.functionType = b.functionType
  domain       : a.domain = b.domain
  range        : a.range = b.range

-- What counts for a table of samples.
structure SameTable (a b : Entries α) : Prop where
  size          : a.size = b.size
  bitsPerSample : a.bitsPerSample = b.bitsPerSample
  order         : a.order = b.order
  encode        : a.encode = b.encode
  decode        : a.decode = b.decode
  samples       : a.samples = b.samples

-- What counts for a power.
structure SameLaw (a b : Entries α) : Prop where
  c₀       : a.c₀ = b.c₀
  c₁       : a.c₁ = b.c₁
  exponent : a.exponent = b.exponent

-- What counts where functions are stitched together, apart from these functions.
structure SameSeams (a b : Entries α) : Prop where
  bounds : a.bounds = b.bounds
  encode : a.encode = b.encode

end Entries

-- Dictionaries of one type that agree on all that counts for it. Functions that are stitched
-- together agree one by one in the same way. No entry but those that count for every type counts
-- where the type is missing or unknown.
inductive Alike : FunctionDict α → FunctionDict α → Prop
  | sampled {a b : Entries α} {ds es : Option (List (FunctionDict α))} (shape : a.SameShape b)
      (type : a.functionType = some 0) (table : a.SameTable b) : Alike ⟨a, ds⟩ ⟨b, es⟩
  | exponential {a b : Entries α} {ds es : Option (List (FunctionDict α))} (shape : a.SameShape b)
      (type : a.functionType = some 2) (law : a.SameLaw b) : Alike ⟨a, ds⟩ ⟨b, es⟩
  | stitching {a b : Entries α} {ds es : Option (List (FunctionDict α))} (shape : a.SameShape b)
      (type : a.functionType = some 3) (seams : a.SameSeams b)
      (count : ds.map List.length = es.map List.length)
      (parts : ∀ p ∈ (ds.getD []).zip (es.getD []), Alike p.1 p.2) : Alike ⟨a, ds⟩ ⟨b, es⟩
  | untyped {a b : Entries α} {ds es : Option (List (FunctionDict α))} (shape : a.SameShape b)
      (type : a.functionType ∉ [some 0, some 2, some 3]) : Alike ⟨a, ds⟩ ⟨b, es⟩

end FunctionDict

namespace Function

open FunctionDict

section Readers

variable {α : Type} [AnalyticScalar α] {a b : Entries α}

theorem Sampled.ofEntries_congr {α : Type} [Scalar α] {a b : Entries α} (h : a.SameTable b) :
    ofEntries a = ofEntries b := by
  funext domain range
  simp only [ofEntries, encodeOf, h.size, h.bitsPerSample, h.order, h.encode, h.decode, h.samples]

theorem Exponential.ofEntries_congr (h : a.SameLaw b) : ofEntries a = ofEntries b := by
  funext domain range
  simp only [ofEntries, h.c₀, h.c₁, h.exponent]

theorem stitch_congr (h : a.SameSeams b) : stitch a = stitch b := by
  funext domain range functions
  simp only [stitch, h.bounds, h.encode]

theorem ofDicts_congr : {ds es : List (FunctionDict α)} → ds.length = es.length →
    (∀ p ∈ ds.zip es, ofDict p.1 = ofDict p.2) → ofDicts ds = ofDicts es
  | [], [], _, _         => rfl
  | d :: _, e :: _, hl, hp => by
    have ⟨hd, hds⟩ := List.forall_mem_cons.mp hp
    rw [ofDicts, ofDicts, hd, ofDicts_congr (Nat.succ.inj hl) hds]

-- The type that a function is read with.
def kindOf (entries : Entries α) : Except EvalError Kind := do
  Kind.ofType (← need entries.functionType (.missingKey .functionType))

-- Reads a function of a known type, once its domain and its range have been read.
def ofKind (entries : Entries α) (dicts? : Option (List (FunctionDict α))) (kind : Kind)
    (domain : List (Span α)) (range : Option (List (Span α))) : Except EvalError (Function α) :=
  match kind with
  | .sampled     => sampled <$> Sampled.ofEntries entries domain range
  | .exponential => exponential <$> Exponential.ofEntries entries domain range
  | .stitching   => do
    let domain ← onlyInput domain .stitchingInputs
    let functions ← (← need (dicts?.map ofDicts) (.missingKey .functions))
    stitch entries domain range functions

theorem ofDict_eq_ofKind (entries : Entries α) (dicts? : Option (List (FunctionDict α))) :
    ofDict ⟨entries, dicts?⟩ = (do
      let kind ← kindOf entries
      let domain ← intervals .domain (← need entries.domain (.missingKey .domain))
      let range ← entries.range.mapM (intervals .range)
      ofKind entries dicts? kind domain range) := by
  rw [ofDict, kindOf, bind_assoc]
  refine bind_congr fun type => bind_congr fun kind => bind_congr fun values =>
    bind_congr fun domain => bind_congr fun range => ?_
  cases kind with
  | sampled     => rfl
  | exponential => rfl
  | stitching   => cases dicts? <;> rfl

-- Reading sees nothing but the shape, and what it reads a function of the type from.
theorem ofDict_congr {ds es : Option (List (FunctionDict α))} (shape : a.SameShape b)
    (h : ∀ kind, kindOf a = .ok kind → ofKind a ds kind = ofKind b es kind) :
    ofDict ⟨a, ds⟩ = ofDict ⟨b, es⟩ := by
  have hk : kindOf a = kindOf b := by rw [kindOf, kindOf, shape.functionType]
  rw [ofDict_eq_ofKind, ofDict_eq_ofKind, ← shape.domain, ← shape.range, ← hk]
  refine bind_congr_ok fun kind hka => ?_
  rw [h kind hka]

omit [AnalyticScalar α] in
theorem kindOf_of_type {kind : Kind} {type : Int} (h : a.functionType = some type)
    (hk : Kind.ofType type = .ok kind) : kindOf a = .ok kind := by
  rw [kindOf, h]
  exact hk

omit [AnalyticScalar α] in
theorem kindOf_eq_ok {kind : Kind} (h : kindOf a = .ok kind) :
    a.functionType ∈ [some 0, some 2, some 3] := by
  have ⟨type, ht, hk⟩ := bind_eq_ok.mp h
  rw [need_eq_ok.mp ht]
  unfold Kind.ofType at hk
  split at hk <;> simp_all

end Readers

variable {α : Type} [AnalyticScalar α] {d d' : FunctionDict α}

-- Dictionaries that agree on what counts for their types give the same error or the same function,
-- which takes as many inputs, gives as many outputs and answers any inputs alike.
theorem ofDict_of_alike (h : d.Alike d') : ofDict d = ofDict d' := by
  induction h with
  | sampled shape type table                   =>
    refine ofDict_congr shape fun kind hk => ?_
    cases hk.symm.trans (kindOf_of_type type rfl)
    unfold ofKind
    rw [Sampled.ofEntries_congr table]
  | exponential shape type law                 =>
    refine ofDict_congr shape fun kind hk => ?_
    cases hk.symm.trans (kindOf_of_type type rfl)
    unfold ofKind
    rw [Exponential.ofEntries_congr law]
  | @stitching _ _ ds es shape type seams count _ ih =>
    refine ofDict_congr shape fun kind hk => ?_
    cases hk.symm.trans (kindOf_of_type type rfl)
    have hds : ds.map ofDicts = es.map ofDicts := by
      match ds, es, count with
      | none, none, _        => rfl
      | some _, some _, hl => exact congrArg some (ofDicts_congr (Option.some.inj hl) ih)
    unfold ofKind
    rw [stitch_congr seams, hds]
  | untyped shape type                         =>
    exact ofDict_congr shape fun kind hk => absurd (kindOf_eq_ok hk) type

-- The ramp, with entries for other types in all of its dictionaries. None of them could be read.
def crowdedRampDict : FunctionDict Float32 :=
  ⟨{ functionType := some 3, domain := some [0, 1], range := some [0, 1], bounds := some [0.5],
      encode := some [0, 1, 0, 1], c₀ := some [], exponent := some (0 / 0), size := some [0],
      bitsPerSample := some 5, order := some 2 },
    some [
      ⟨{ functionType := some 0, domain := some [0, 1], range := some [0, 1], size := some [2],
          bitsPerSample := some 8, samples := some [0, 255], c₁ := some [1, 2],
          bounds := some [2, 1] }, some []⟩,
      ⟨{ functionType := some 2, domain := some [0, 1], c₁ := some [4], exponent := some 1,
          encode := some [7], decode := some [], samples := some [] }, some [⟨{}, none⟩]⟩]⟩

-- Of the entries for other types nothing is seen.
theorem ofDict_of_alike_ramp : rampDict.Alike crowdedRampDict ∧
    ofDict rampDict = ofDict crowdedRampDict ∧ (ofDict crowdedRampDict).toOption.isSome := by
  have h : rampDict.Alike crowdedRampDict := by
    refine .stitching ⟨rfl, rfl, rfl⟩ rfl ⟨rfl, rfl⟩ rfl fun p hp => ?_
    simp only [Option.getD_some, List.zip_cons_cons, List.zip_nil_right, List.mem_cons,
      List.not_mem_nil, or_false] at hp
    rcases hp with rfl | rfl
    case inl => exact .sampled ⟨rfl, rfl, rfl⟩ rfl ⟨rfl, rfl, rfl, rfl, rfl, rfl⟩
    case inr => exact .exponential ⟨rfl, rfl, rfl⟩ rfl ⟨rfl, rfl, rfl⟩
  exact ⟨h, ofDict_of_alike h, by decide +kernel⟩

end Function

end PdfGraphics
