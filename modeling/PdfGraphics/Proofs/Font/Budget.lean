import PdfGraphics.Proofs.Charstring.Bounded
import PdfGraphics.Proofs.Font.Cache
/-!
The operators that decoding one glyph takes.

A composed glyph takes three runs of charstrings, and each of them has a budget of its own. To see
this, decoding is written out once more with a record of its runs.
-/

namespace PdfGraphics.Font

-- A run of a charstring: the machine with which it ended, and what stopped it early.
structure Run where
  machine : Charstring.Machine
  error : Option DecodeError

-- The operators that were executed in some runs.
def operators : List Run → Nat
  | [] => 0
  | run :: runs => run.machine.spent + operators runs

-- An answer, with the runs that it took.
structure Recorded (α : Type) where
  value : α
  runs : List Run := []

namespace Recorded

instance : Monad Recorded where
  pure value := { value }
  bind x f := { value := (f x.value).value, runs := x.runs ++ (f x.value).runs }

variable {α β : Type}

@[simp] theorem runs_pure (a : α) : (pure a : Recorded α).runs = [] := rfl

@[simp] theorem value_bind (x : Recorded α) (f : α → Recorded β) :
    (x >>= f).value = (f x.value).value := rfl

@[simp] theorem runs_bind (x : Recorded α) (f : α → Recorded β) :
    (x >>= f).runs = x.runs ++ (f x.value).runs := rfl

end Recorded

def recordDrawing (font : Font) (limits : Charstring.Limits) (glyph : UInt16) :
    Recorded (Charstring.Drawing × Option DecodeError) :=
  match font.charstrings.get? glyph.toNat with
  | some code =>
    let (machine, error) := Charstring.Machine.run (font.context limits) { code }
    { value := (machine.state.drawing font.privateDict.defaultWidth, error)
      runs := [⟨machine, error⟩] }
  | none => pure (⟨.empty, font.privateDict.defaultWidth, none⟩, some .unknownGlyph)

def recordComponent (font : Font) (limits : Charstring.Limits) (code : UInt8) :
    Recorded (Except DecodeError (Outline Float32)) :=
  match font.standardGlyph? code with
  | none => pure (.error .unknownGlyph)
  | some glyph => do
    match ← font.recordDrawing limits glyph with
    | (_, some e) => return .error e
    | ({ outline, accented := none, .. }, none) => return .ok outline
    | ({ accented := some _, .. }, none) => return .error (.recursionLimitExceeded 2)

def recordCompose (font : Font) (limits : Charstring.Limits) (outline : Outline Float32)
    (a : Charstring.Accented) : Recorded (Except DecodeError (Outline Float32)) := do
  match ← font.recordComponent limits a.base with
  | .error e => return .error e
  | .ok base =>
    match ← font.recordComponent limits a.accent with
    | .error e => return .error e
    | .ok accent =>
      return .ok ((outline.append base .identity).append accent (.shift a.adx a.ady))

def recordBuild (font : Font) (limits : Charstring.Limits) (glyph : UInt16) (name : String) :
    Recorded (Glyph × Option DecodeError) := do
  let (drawing, error) ← font.recordDrawing limits glyph
  let own : Glyph := ⟨name, drawing.outline, drawing.width⟩
  match error, drawing.accented with
  | some e, _ => return (own, some e)
  | none, none => return (own, none)
  | none, some a =>
    match ← font.recordCompose limits own.outline a with
    | .ok outline => return ({ own with outline }, none)
    | .error e => return (own, some e)

def Session.recordDecode (s : Session) (ref : GlyphRef) :
    Recorded (Except DecodeError Handle × Session) :=
  match s.font.resolve ref with
  | .error e => pure (.error e, s)
  | .ok (glyph, name) =>
    match s.cache[name]? with
    | some h => pure (.ok h, s)
    | none => do
      let (built, error) ← s.font.recordBuild s.limits glyph name
      let (h, s) := s.issue built
      match error with
      | none => return (.ok h, s.keep h)
      | some e => return (.error e, s)

variable {font : Font} {limits : Charstring.Limits}

/-! The record changes nothing in the answers. -/

theorem value_recordDrawing (glyph : UInt16) :
    (font.recordDrawing limits glyph).value = font.drawing limits glyph := by
  simp only [recordDrawing, drawing]
  cases font.charstrings.get? glyph.toNat <;> rfl

theorem value_recordComponent (code : UInt8) :
    (font.recordComponent limits code).value = font.component limits code := by
  unfold recordComponent component
  cases font.standardGlyph? code with
  | none => rfl
  | some glyph =>
    simp only [value_recordDrawing, need, Option.elim, bind, Except.bind]
    rcases font.drawing limits glyph with ⟨⟨outline, width, accented⟩, error⟩
    cases error <;> cases accented <;> rfl

theorem value_recordCompose (outline : Outline Float32) (a : Charstring.Accented) :
    (font.recordCompose limits outline a).value = font.compose limits outline a := by
  simp only [recordCompose, compose, Recorded.value_bind, value_recordComponent]
  cases font.component limits a.base with
  | error e => rfl
  | ok base =>
    simp only [Recorded.value_bind, value_recordComponent]
    cases font.component limits a.accent <;> rfl

theorem value_recordBuild (glyph : UInt16) (name : String) :
    (font.recordBuild limits glyph name).value = font.build limits glyph name := by
  simp only [recordBuild, build, Recorded.value_bind, value_recordDrawing]
  rcases font.drawing limits glyph with ⟨⟨outline, width, accented⟩, error⟩
  cases error with
  | some e => rfl
  | none =>
    cases accented with
    | none => rfl
    | some a =>
      simp only [Recorded.value_bind, value_recordCompose]
      cases font.compose limits outline a <;> rfl

theorem Session.value_recordDecode (s : Session) (ref : GlyphRef) :
    (s.recordDecode ref).value = s.decode ref := by
  simp only [recordDecode, decode, obtain]
  cases s.font.resolve ref with
  | error e => rfl
  | ok found =>
    rcases found with ⟨glyph, name⟩
    simp only
    cases s.cache[name]? with
    | some h => rfl
    | none =>
      simp only [Recorded.value_bind, value_recordBuild]
      rcases s.font.build s.limits glyph name with ⟨built, error⟩
      cases error <;> rfl

/-! What the runs are. -/

-- At most `n` runs, each within the budget. An error of any of them is the answer's error.
structure Recorded.Within {α : Type} (limits : Charstring.Limits) (n : Nat)
    (fails : α → DecodeError → Prop) (x : Recorded α) : Prop where
  length_le : x.runs.length ≤ n
  spent_le : ∀ run ∈ x.runs, run.machine.spent ≤ limits.maxOperators
  fails : ∀ run ∈ x.runs, ∀ e, run.error = some e → fails x.value e

namespace Recorded.Within

variable {α β : Type} {m n : Nat} {failsA : α → DecodeError → Prop}
  {failsB : β → DecodeError → Prop}

theorem pure (a : α) : Within limits n failsA (Pure.pure a) :=
  ⟨Nat.zero_le _, by simp, by simp⟩

theorem bind {x : Recorded α} {f : α → Recorded β} (hx : x.Within limits m failsA)
    (hf : (f x.value).Within limits n failsB)
    (hfails : ∀ e, failsA x.value e → failsB (f x.value).value e) :
    (x >>= f).Within limits (m + n) failsB where
  length_le := by
    have := hx.length_le
    have := hf.length_le
    simp only [runs_bind, List.length_append]
    omega
  spent_le run hr := by
    rcases List.mem_append.mp hr with hr | hr
    · exact hx.spent_le run hr
    · exact hf.spent_le run hr
  fails run hr e he := by
    rcases List.mem_append.mp hr with hr | hr
    · exact hfails e (hx.fails run hr e he)
    · exact hf.fails run hr e he

end Recorded.Within

-- How the answers of drawing and building report an error.
def Reports {α : Type} (answer : α × Option DecodeError) (e : DecodeError) : Prop :=
  answer.2 = some e

theorem within_recordDrawing (glyph : UInt16) :
    (font.recordDrawing limits glyph).Within limits 1 Reports := by
  simp only [recordDrawing]
  cases font.charstrings.get? glyph.toNat with
  | none => exact .pure _
  | some code =>
    have hb := @Charstring.Machine.bounded_run (font.context limits) code
    exact ⟨Nat.le_refl _, List.forall_mem_singleton.mpr hb.spent,
      List.forall_mem_singleton.mpr fun _ he => he⟩

theorem within_recordComponent (code : UInt8) :
    (font.recordComponent limits code).Within limits 1 (fun answer e => answer = .error e) := by
  unfold recordComponent
  cases font.standardGlyph? code with
  | none => exact .pure _
  | some glyph =>
    refine (within_recordDrawing glyph).bind (n := 0) ?_ fun e he => ?_
    case _ => split <;> exact .pure _
    case _ =>
      generalize (font.recordDrawing limits glyph).value = answer at he
      obtain ⟨drawing, error⟩ := answer
      cases he
      rfl

theorem within_recordCompose (outline : Outline Float32) (a : Charstring.Accented) :
    (font.recordCompose limits outline a).Within limits 2 (fun answer e => answer = .error e) := by
  unfold recordCompose
  refine (within_recordComponent a.base).bind (n := 1) ?_ fun e he => ?_
  case _ =>
    split
    case h_1 => exact .pure _
    case h_2 =>
      refine (within_recordComponent a.accent).bind (n := 0) ?_ fun e he => ?_
      case _ => split <;> exact .pure _
      case _ => simp only [he]; rfl
  case _ => simp only [he]; rfl

theorem within_recordBuild (glyph : UInt16) (name : String) :
    (font.recordBuild limits glyph name).Within limits 3 Reports := by
  unfold recordBuild
  refine (within_recordDrawing glyph).bind (n := 2) ?_ fun e he => ?_
  case _ =>
    simp only
    split
    case h_1 => exact .pure _
    case h_2 => exact .pure _
    case h_3 =>
      refine (within_recordCompose _ _).bind (n := 0) ?_ fun e he => ?_
      case _ => split <;> exact .pure _
      case _ => simp only [he]; rfl
  case _ =>
    generalize (font.recordDrawing limits glyph).value = answer at he
    obtain ⟨drawing, error⟩ := answer
    cases he
    rfl

theorem Session.within_recordDecode (s : Session) (ref : GlyphRef) :
    (s.recordDecode ref).Within s.limits 3 (fun answer e => answer.1 = .error e) := by
  unfold recordDecode
  split
  case h_1 => exact .pure _
  case h_2 glyph name _ =>
    split
    case h_1 => exact .pure _
    case h_2 =>
      refine (within_recordBuild glyph name).bind (n := 0) ?_ fun e he => ?_
      case _ => simp only; split <;> exact .pure _
      case _ =>
        generalize (s.font.recordBuild s.limits glyph name).value = answer at he
        obtain ⟨built, error⟩ := answer
        cases he
        rfl

theorem operators_le {runs : List Run}
    (h : ∀ run ∈ runs, run.machine.spent ≤ limits.maxOperators) :
    operators runs ≤ runs.length * limits.maxOperators := by
  induction runs with
  | nil => exact Nat.zero_le _
  | cons run runs ih =>
    have ⟨hr, hrs⟩ := List.forall_mem_cons.mp h
    calc run.machine.spent + operators runs
      _ ≤ limits.maxOperators + runs.length * limits.maxOperators := Nat.add_le_add hr (ih hrs)
      _ = (runs.length + 1) * limits.maxOperators := by rw [Nat.succ_mul, Nat.add_comm]

theorem accented_recordDrawing {glyph : UInt16}
    (h : ∀ run ∈ (font.recordDrawing limits glyph).runs, run.machine.state.accented = none) :
    (font.recordDrawing limits glyph).value.1.accented = none := by
  revert h
  simp only [recordDrawing]
  cases font.charstrings.get? glyph.toNat with
  | none      => exact fun _ => rfl
  | some code => exact List.forall_mem_singleton.mp

-- A glyph that is not composed takes one run.
theorem length_runs_recordBuild {glyph : UInt16} {name : String}
    (h : ∀ run ∈ (font.recordBuild limits glyph name).runs, run.machine.state.accented = none) :
    (font.recordBuild limits glyph name).runs.length ≤ 1 := by
  have ha : (font.recordDrawing limits glyph).value.1.accented = none :=
    accented_recordDrawing fun run hr => h run (List.mem_append_left _ hr)
  have hl := (@within_recordDrawing font limits glyph).length_le
  simp only [recordBuild, Recorded.runs_bind]
  split
  case h_1 => simpa using hl
  case h_2 => simpa using hl
  case h_3 _ a hs => simp [ha] at hs

theorem Session.length_runs_recordDecode {s : Session} {ref : GlyphRef}
    (h : ∀ run ∈ (s.recordDecode ref).runs, run.machine.state.accented = none) :
    (s.recordDecode ref).runs.length ≤ 1 := by
  revert h
  unfold recordDecode
  split
  case h_1 => simp
  case h_2 glyph name _ =>
    split
    case h_1 => simp
    case h_2 =>
      intro h
      have hl := @length_runs_recordBuild s.font s.limits glyph name
        fun run hr => h run (List.mem_append_left _ hr)
      simp only [Recorded.runs_bind]
      split <;> simpa using hl

-- A call stays within three budgets, and within one if no charstring that it runs asks for a
-- composition. A run that would go beyond its own budget makes the call fail.
theorem Session.decode_operators (s : Session) (ref : GlyphRef) :
    (s.recordDecode ref).value = s.decode ref ∧
    operators (s.recordDecode ref).runs ≤ 3 * s.limits.maxOperators ∧
    ((∀ run ∈ (s.recordDecode ref).runs, run.machine.state.accented = none) →
      operators (s.recordDecode ref).runs ≤ s.limits.maxOperators) ∧
    ∀ run ∈ (s.recordDecode ref).runs,
      run.machine.spent ≤ s.limits.maxOperators ∧
        ∀ e, run.error = some e → (s.decode ref).1 = .error e := by
  have hw := within_recordDecode s ref
  have hs := operators_le hw.spent_le
  refine ⟨value_recordDecode s ref, ?_, fun ha => ?_, fun run hr => ⟨hw.spent_le run hr, ?_⟩⟩
  case _ => exact hs.trans (Nat.mul_le_mul_right _ hw.length_le)
  case _ => simpa using hs.trans (Nat.mul_le_mul_right _ (length_runs_recordDecode ha))
  case _ => exact value_recordDecode s ref ▸ hw.fails run hr

-- The last glyph is composed of the two before it.
def composed : List UInt8 :=
  [1, 0, 4, 1] ++ [0, 0] ++ [0, 1, 1, 1, 5, 175, 15, 158, 17] ++ [0, 0] ++ [0, 0] ++
  [0, 4, 1, 1, 2, 3, 4, 10, 14, 14, 14, 139, 139, 204, 247, 86, 14] ++ [0, 0, 34, 0, 125, 0, 171]

theorem read_composed :
    ∃ font, read composed = .ok font ∧
      font.resolve (.index 1) = .ok (1, "A") ∧ font.resolve (.index 3) = .ok (3, "Aacute") ∧
      (∀ run ∈ (font.recordBuild ⟨64, 1⟩ 1 "A").runs, run.machine.state.accented = none) ∧
      (font.build ⟨64, 1⟩ 3 "Aacute").2 = none ∧
      operators (font.recordBuild ⟨64, 1⟩ 3 "Aacute").runs = 3 :=
  exists_of_map_decide (by decide +kernel)

namespace Session

theorem runs_recordDecode {font : Font} {limits : Charstring.Limits} {ref : GlyphRef}
    {glyph : UInt16} {name : String} (hr : font.resolve ref = .ok (glyph, name)) :
    ((after font [.withLimits limits]).recordDecode ref).runs =
      (font.recordBuild limits glyph name).runs := by
  simp only [after, serve, withLimits, List.foldl_cons, List.foldl_nil, recordDecode, hr,
    Std.HashMap.getElem?_empty, Recorded.runs_bind]
  split <;> simp

theorem decode_operators_composed :
    ∃ font, read composed = .ok font ∧
      (∀ run ∈ ((after font [.withLimits ⟨64, 1⟩]).recordDecode (.index 1)).runs,
        run.machine.state.accented = none) ∧
      operators ((after font [.withLimits ⟨64, 1⟩]).recordDecode (.index 1)).runs ≤ 1 := by
  have ⟨font, hr, h₁, _, ha, _, _⟩ := read_composed
  have ha := runs_recordDecode h₁ ▸ ha
  exact ⟨font, hr, ha, (decode_operators _ _).right.right.left ha⟩

-- The charstrings of a glyph and of its two parts take one operator each. All three are executed
-- where the limit is one.
theorem composed_exceeds_budget :
    ∃ font h, read composed = .ok font ∧
      ((after font [.withLimits ⟨64, 1⟩]).decode (.index 3)).1 = .ok h ∧
      operators ((after font [.withLimits ⟨64, 1⟩]).recordDecode (.index 3)).runs = 3 := by
  have ⟨font, hr, _, h₃, _, hb, ho⟩ := read_composed
  refine ⟨font, ⟨0, (font.build ⟨64, 1⟩ 3 "Aacute").1⟩, hr, ?_, ?_⟩
  case _ => simp [after, serve, withLimits, decode, obtain, issue, keep, h₃, hb]
  case _ => rw [runs_recordDecode h₃, ho]

end Session

end PdfGraphics.Font
