import PdfGraphics.Proofs.Function.Reading
/-!
Evaluating a function that was read from a dictionary.

It gives as many outputs as it has, each of them in its range, for any inputs of the right number,
numbers or not. On the way it reaches for nothing that is not there.
-/

namespace PdfGraphics

def FunctionDict.entries {α : Type} : FunctionDict α → FunctionDict.Entries α
  | ⟨entries, _⟩ => entries

namespace Function

section Answers

variable {α : Type} [AnalyticScalar α] {entries : FunctionDict.Entries α} {domain : Span α}
variable {range : Option (List (Span α))} {pieces : Pieces α} {f : Function α}

theorem evaluate_arity {inputs : List α} (h : inputs.length ≠ f.inputCount) :
    f.evaluate inputs = .error (.inputArity f.inputCount inputs.length) := by
  cases f with
  | sampled table              => exact if_neg h
  | exponential | stitched _ _ =>
    match inputs with
    | []          => rfl
    | [_]         => exact absurd rfl h
    | _ :: _ :: _ => rfl

-- A function gives all its outputs when it gets as many inputs as it has.
def Answers (f : Function α) : Prop :=
  ∀ inputs, inputs.length = f.inputCount →
    ∃ outputs, f.evaluate inputs = .ok outputs ∧ outputs.length = f.outputCount

theorem evaluate_sampled {table : Sampled α} {inputs : List α}
    (hl : inputs.length = table.axes.length) :
    (sampled table).evaluate inputs = table.evaluate inputs :=
  if_pos hl

theorem answers_sampled {table : Sampled α} (filled : table.Filled) :
    (sampled table).Answers := by
  intro inputs hl
  have ⟨outputs, he⟩ := filled.exists_evaluate hl
  refine ⟨outputs, (evaluate_sampled hl).trans he, ?_⟩
  rw [Sampled.length_evaluate he, outputCount]

theorem answers_exponential {law : Exponential α} (holds : law.Holds entries) :
    (exponential law).Answers := by
  intro inputs hl
  have ⟨x, hx⟩ := List.length_eq_one_iff.mp hl
  refine ⟨law.evaluate x, by rw [hx]; rfl, ?_⟩
  rw [Exponential.evaluate, length_clipTo] <;> rw [List.length_map]
  case _ => rw [outputCount]
  case _ => exact holds.fits

-- The function of the piece that an input belongs to gets one input and answers it.
theorem evaluate_stitched (holds : StitchHolds domain range pieces entries)
    (ha : ∀ f ∈ pieces.functions, f.Answers) (x : α) :
    ∃ f y outputs, pieces.Passes domain.lo domain.hi (domain.clip x) f y ∧
      f.evaluate [y] = .ok outputs ∧ outputs.length = piecesOutputCount pieces ∧
      (stitched domain range pieces).evaluate [x] = .ok (clipTo range outputs) := by
  have ⟨f, y, hp, he⟩ := pieces.passes_evaluatePieces (domain.clip x) domain.lo domain.hi
  have hm : f ∈ pieces.functions := by
    cases hp with
    | intro hf => exact List.mem_of_getElem? hf
  have ⟨outputs, ho, hl⟩ := ha f hm [y] (holds.inputs f hm).symm
  refine ⟨f, y, outputs, hp, ho, hl.trans (holds.outputs f hm), ?_⟩
  rw [evaluate, he, ho]
  rfl

theorem answers_stitched (holds : StitchHolds domain range pieces entries)
    (ha : ∀ f ∈ pieces.functions, f.Answers) : (stitched domain range pieces).Answers := by
  intro inputs hl
  have ⟨x, hx⟩ := List.length_eq_one_iff.mp hl
  have ⟨_, _, outputs, _, _, hn, he⟩ := evaluate_stitched holds ha x
  refine ⟨clipTo range outputs, hx ▸ he, ?_⟩
  rw [length_clipTo (hn ▸ holds.fits), hn, outputCount]

variable {d : FunctionDict α}

theorem Describes.answers (h : Describes d f) : f.Answers := by
  induction h with
  | sampled filled _          => exact answers_sampled filled
  | exponential holds         => exact answers_exponential holds
  | stitched holds count _ ih =>
    refine answers_stitched holds fun f hf => ?_
    have ⟨d, hm⟩ := mem_zip_of_mem count hf
    exact ih (d, f) hm

-- A dictionary that stands at some depth among the functions of another, with the function that was
-- read from it.
inductive Part : FunctionDict α → Function α → FunctionDict α → Function α → Prop
  | whole {d : FunctionDict α} {f : Function α} : Part d f d f
  | piece {d : FunctionDict α} {f : Function α} {entries : FunctionDict.Entries α}
      {dicts : List (FunctionDict α)} {domain : Span α} {range : Option (List (Span α))}
      {pieces : Pieces α} {d' : FunctionDict α} {f' : Function α}
      (h : Part d f ⟨entries, some dicts⟩ (.stitched domain range pieces))
      (hm : (d', f') ∈ dicts.zip pieces.functions) : Part d f d' f'

theorem Describes.part {d' : FunctionDict α} {f' : Function α} (hp : Part d f d' f')
    (h : Describes d f) : Describes d' f' := by
  induction hp with
  | whole         => exact h
  | piece _ hm ih =>
    cases ih with
    | stitched _ _ parts => exact parts _ hm

-- All that evaluating a function looks up is there. Its lists are those of the dictionary, in full.
-- The corners of a cell can be numbered in a 64-bit word, and the samples looked up for them are in
-- the table. The function of a piece gives no error.
inductive Safe : FunctionDict α → Function α → Prop
  | sampled {entries : FunctionDict.Entries α} {dicts? : Option (List (FunctionDict α))}
      {table : Sampled α} (holds : table.Holds entries)
      (shift : ∀ inputs, inputs.length = table.axes.length →
        GridCell.shift (table.cells inputs) < 64 ∧
          (GridCell.corners (table.cells inputs)).length = 2 ^ GridCell.shift (table.cells inputs))
      (sample : ∀ inputs, inputs.length = table.axes.length →
        ∀ corner ∈ GridCell.corners (table.cells inputs), ∀ channel < table.channels.length,
          ∃ v, table.samples[corner.entry * table.channels.length + channel]? = some v ∧
            table.lookup channel corner.entry = .ok v)
      (answers : ∀ inputs, inputs.length = table.axes.length →
        ∃ outputs, table.evaluate inputs = .ok outputs) :
      Safe ⟨entries, dicts?⟩ (.sampled table)
  | exponential {entries : FunctionDict.Entries α} {dicts? : Option (List (FunctionDict α))}
      {law : Exponential α} (holds : law.Holds entries) : Safe ⟨entries, dicts?⟩ (.exponential law)
  | stitched {entries : FunctionDict.Entries α} {dicts : List (FunctionDict α)} {domain : Span α}
      {range : Option (List (Span α))} {pieces : Pieces α}
      (holds : StitchHolds domain range pieces entries)
      (count : dicts.length = pieces.functions.length)
      (answers : ∀ x, ∃ f y outputs, pieces.Passes domain.lo domain.hi (domain.clip x) f y ∧
        f.evaluate [y] = .ok outputs ∧
        (stitched domain range pieces).evaluate [x] = .ok (clipTo range outputs)) :
      Safe ⟨entries, some dicts⟩ (.stitched domain range pieces)

theorem Describes.answers_of_mem {dicts : List (FunctionDict α)}
    (h : Describes ⟨entries, some dicts⟩ (.stitched domain range pieces))
    (hf : f ∈ pieces.functions) : f.Answers := by
  cases h with
  | stitched _ count parts =>
    have ⟨d, hm⟩ := mem_zip_of_mem count hf
    exact (parts (d, f) hm).answers

theorem Describes.safe (h : Describes d f) : Safe d f := by
  cases h with
  | sampled filled holds        =>
    exact .sampled holds (fun _ hl => ⟨filled.shift_lt hl, GridCell.length_corners _⟩)
      (fun _ hl _ hk _ hc =>
        have ⟨v, hv⟩ := filled.exists_lookup hl hk hc
        ⟨v, Sampled.lookup_eq_ok.mp hv, hv⟩)
      fun _ hl => filled.exists_evaluate hl
  | exponential holds           => exact .exponential holds
  | stitched holds count parts =>
    refine .stitched holds count fun x => ?_
    have h := Describes.stitched holds count parts
    have ⟨f, y, outputs, hp, ho, _, he⟩ :=
      evaluate_stitched holds (fun _ hf => h.answers_of_mem hf) x
    exact ⟨f, y, outputs, hp, ho, he⟩

end Answers

section Range

variable {d : FunctionDict Float32} {f : Function Float32} {inputs outputs values : List Float32}

theorem confined_sampled {entries : FunctionDict.Entries Float32} {table : Sampled Float32}
    (holds : table.Holds entries) (hv : entries.range = some values)
    (he : table.evaluate inputs = .ok outputs) : Confined values outputs := by
  have hl : (table.channels.map (·.range)).length = outputs.length := by
    rw [List.length_map, Sampled.length_evaluate he]
  rw [← Option.some.inj (holds.range.symm.trans hv)]
  refine confined_of_clip hl holds.ordered fun j y hj => ?_
  have ⟨channel, hc, ho⟩ := Sampled.getElem?_evaluate he hj
  have ⟨_, _, hy⟩ := Sampled.output_eq_ok.mp ho
  exact ⟨channel.range, _, by rw [List.getElem?_map, hc]; rfl, hy⟩

theorem Describes.confined (h : Describes d f) (hl : inputs.length = f.inputCount)
    (he : f.evaluate inputs = .ok outputs) (hv : d.entries.range = some values) :
    Confined values outputs := by
  cases h with
  | sampled _ holds             =>
    exact confined_sampled holds hv ((evaluate_sampled hl).symm.trans he)
  | exponential holds           =>
    have ⟨x, hx⟩ := List.length_eq_one_iff.mp hl
    rw [hx] at he
    cases he
    refine confined_clipTo (holds.range.symm.trans hv) ?_
    rw [List.length_map]
    exact holds.fits
  | stitched holds count parts =>
    have h := Describes.stitched holds count parts
    have ⟨x, hx⟩ := List.length_eq_one_iff.mp hl
    have ⟨f, y, raw, hp, _, hn, ho⟩ := evaluate_stitched holds (fun _ hf => h.answers_of_mem hf) x
    rw [hx, ho] at he
    cases he
    exact confined_clipTo (holds.range.symm.trans hv) (hn ▸ holds.fits)

-- A function that was read counts its inputs and refuses no others. It answers any of the right
-- number with all of its outputs, which lie in the range if the dictionary has one. Neither it nor
-- any function stitched into it looks up what is not there.
theorem evaluate_total (h : ofDict d = .ok f) :
    (∀ inputs, inputs.length ≠ f.inputCount →
      f.evaluate inputs = .error (.inputArity f.inputCount inputs.length)) ∧
    (∀ inputs, inputs.length = f.inputCount → ∃ outputs, f.evaluate inputs = .ok outputs ∧
      outputs.length = f.outputCount ∧
      ∀ values, d.entries.range = some values → Confined values outputs) ∧
    ∀ d' f', Part d f d' f' → Safe d' f' := by
  have hd := describes_of_ofDict h
  refine ⟨fun _ => evaluate_arity, fun inputs hl => ?_, fun _ _ hp => (hd.part hp).safe⟩
  have ⟨outputs, he, hn⟩ := hd.answers inputs hl
  exact ⟨outputs, he, hn, fun _ hv => hd.confined hl he hv⟩

-- A table of two samples up to one half, and from there on a line that leaves the range.
def rampDict : FunctionDict Float32 :=
  ⟨{ functionType := some 3, domain := some [0, 1], range := some [0, 1], bounds := some [0.5],
      encode := some [0, 1, 0, 1] },
    some [
      ⟨{ functionType := some 0, domain := some [0, 1], range := some [0, 1], size := some [2],
          bitsPerSample := some 8, samples := some [0, 255] }, none⟩,
      ⟨{ functionType := some 2, domain := some [0, 1], c₁ := some [4], exponent := some 1 },
        none⟩]⟩

theorem evaluate_total_ramp : ∃ f, ofDict rampDict = .ok f ∧ Safe rampDict f ∧
    f.evaluate [] = .error (.inputArity 1 0) ∧
    ∃ outputs, f.evaluate [0 / 0] = .ok outputs ∧ outputs.length = 1 ∧ Confined [0, 1] outputs := by
  have hc : (ofDict rampDict).toOption.map (fun f => (f.inputCount, f.outputCount)) =
      some (1, 1) := by
    decide +kernel
  cases hr : ofDict rampDict with
  | error => simp [hr, Except.toOption] at hc
  | ok f  =>
    have ⟨hin, hout⟩ : f.inputCount = 1 ∧ f.outputCount = 1 := by
      simpa [hr, Except.toOption] using hc
    have ⟨harity, hanswers, hsafe⟩ := evaluate_total hr
    have ⟨outputs, he, hl, hrange⟩ := hanswers [0 / 0] hin.symm
    exact ⟨f, rfl, hsafe _ _ .whole, hin ▸ harity [] (by simp [hin]), outputs, he, hl.trans hout,
      hrange _ rfl⟩

end Range

end Function

end PdfGraphics
