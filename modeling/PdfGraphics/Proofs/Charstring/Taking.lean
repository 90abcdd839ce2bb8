import PdfGraphics.Proofs.Charstring.Expansion
/-!
Operators that take their operands one by one.

The operators that draw are written out once more in steps: each takes an operand from the bottom of
the stack, looks how many are left, or draws. To take an operand where none is left is an error, and
what was drawn until then stays drawn. Yet an operator with enough operands gets each that it asks
for and draws all they mean, and one with too few fails before it draws anything.
-/

namespace PdfGraphics.Charstring

-- The operands that are left, from the bottom of the stack, and the path so far.
structure Work (α : Type) where
  operands : List α
  path : PathBuilder α

abbrev Taking (α : Type) := ExceptT DecodeError (StateM (Work α))

namespace Taking

variable {α β γ : Type}

-- What comes of some steps, and what they leave.
def on (x : Taking α β) (w : Work α) : Except DecodeError β × Work α :=
  x.run.run w

def take : Taking α α := do
  match (← get).operands with
  | [] => throw .stackUnderflow
  | v :: operands =>
    modify fun w => { w with operands }
    return v

def left : Taking α Nat :=
  return (← get).operands.length

def require (n : Nat) : Taking α Unit := do
  if (← left) < n then
    throw .stackUnderflow

def clear : Taking α Unit :=
  modify fun w => { w with operands := [] }

-- Takes the operand in front if there are as many as to have one more there.
def takeLeading (isThere : Nat → Bool) : Taking α (Option α) := do
  if isThere (← left) then
    return some (← take)
  else
    return none

-- Takes turns while at least `n` operands are left.
def whileLeft (n : Nat) (turn : β → Taking α β) (b : β) : Taking α Unit := do
  go (← left) b
where
  -- Each turn takes some operands, so there are no more turns than operands.
  go : Nat → β → Taking α Unit
    | 0, _ => return
    | turns + 1, b => do
      if n ≤ (← left) then
        go turns (← turn b)

def times : Nat → Taking α Unit → Taking α Unit
  | 0, _ => return
  | n + 1, x => do
    x
    times n x

variable [Scalar α]

def draw (s : Segment α) : Taking α Unit :=
  modify fun w => { w with path := s.draw w.path }

def move (dx dy : α) : Taking α Unit :=
  modify fun w => { w with path := w.path.moveBy dx dy }

def drawLine : Taking α Unit := do
  let dx ← take
  let dy ← take
  draw (.line dx dy)

def drawCurve : Taking α Unit := do
  let dx₁ ← take
  let dy₁ ← take
  let dx₂ ← take
  let dy₂ ← take
  let dx₃ ← take
  let dy₃ ← take
  draw (.curve dx₁ dy₁ dx₂ dy₂ dx₃ dy₃)

def drawAlongAxis (isHorizontal : Bool) : Taking α Bool := do
  let d ← take
  draw (Segment.alongAxis isHorizontal d)
  return !isHorizontal

def drawHorizontal (dy : α) : Taking α α := do
  let dx₁ ← take
  let dx₂ ← take
  let dy₂ ← take
  let dx₃ ← take
  draw (.curve dx₁ dy dx₂ dy₂ dx₃ Scalar.zero)
  return Scalar.zero

def drawVertical (dx : α) : Taking α α := do
  let dy₁ ← take
  let dx₂ ← take
  let dy₂ ← take
  let dy₃ ← take
  draw (.curve dx dy₁ dx₂ dy₂ Scalar.zero dy₃)
  return Scalar.zero

def drawBetweenAxes (isHorizontal : Bool) : Taking α Bool := do
  let d₁ ← take
  let d₂ ← take
  let d₃ ← take
  let d₄ ← take
  let last ← takeLeading (· = 1)
  draw (Segment.betweenAxes isHorizontal d₁ d₂ d₃ d₄ (last.getD Scalar.zero))
  return !isHorizontal

def alternatingLines (isHorizontal : Bool) : Taking α Unit := do
  require 1
  whileLeft 1 drawAlongAxis isHorizontal

def alternatingCurves (isHorizontal : Bool) : Taking α Unit := do
  require 4
  whileLeft 4 drawBetweenAxes isHorizontal
  clear

-- Where a flex ends that moved by `dx` and `dy` so far.
def flexEnd (dx dy d₆ : α) : α × α :=
  if Scalar.abs dy < Scalar.abs dx then (d₆, -dy) else (-dx, d₆)

end Taking

section

open Taking

variable {α : Type} [Scalar α]

def PathOperator.work : PathOperator → Taking α Unit
  | rlineto => do
    require 2
    whileLeft 2 (fun _ => drawLine) ()
    clear
  | hlineto => alternatingLines true
  | vlineto => alternatingLines false
  | rrcurveto => do
    require 6
    whileLeft 6 (fun _ => drawCurve) ()
    clear
  | rcurveline => do
    require 2
    times (((← left) - 2) / 6) drawCurve
    drawLine
    clear
  | rlinecurve => do
    require 6
    times (((← left) - 6) / 2) drawLine
    drawCurve
    clear
  | vvcurveto => do
    let dx ← takeLeading (· % 2 = 1)
    require 4
    whileLeft 4 drawVertical (dx.getD Scalar.zero)
    clear
  | hhcurveto => do
    let dy ← takeLeading (· % 2 = 1)
    require 4
    whileLeft 4 drawHorizontal (dy.getD Scalar.zero)
    clear
  | vhcurveto => alternatingCurves false
  | hvcurveto => alternatingCurves true
  | flex => do
    require 13
    drawCurve
    drawCurve
    let _ ← take
    clear
  | hflex => do
    require 7
    let dx₁ ← take
    let dx₂ ← take
    let dy₂ ← take
    let dx₃ ← take
    let dx₄ ← take
    let dx₅ ← take
    let dx₆ ← take
    draw (.curve dx₁ Scalar.zero dx₂ dy₂ dx₃ Scalar.zero)
    draw (.curve dx₄ Scalar.zero dx₅ (-dy₂) dx₆ Scalar.zero)
    clear
  | hflex1 => do
    require 9
    let dx₁ ← take
    let dy₁ ← take
    let dx₂ ← take
    let dy₂ ← take
    let dx₃ ← take
    let dx₄ ← take
    let dx₅ ← take
    let dy₅ ← take
    let dx₆ ← take
    draw (.curve dx₁ dy₁ dx₂ dy₂ dx₃ Scalar.zero)
    draw (.curve dx₄ Scalar.zero dx₅ dy₅ dx₆ (-(dy₁ + dy₂ + dy₅)))
    clear
  | flex1 => do
    require 11
    let dx₁ ← take
    let dy₁ ← take
    let dx₂ ← take
    let dy₂ ← take
    let dx₃ ← take
    let dy₃ ← take
    let dx₄ ← take
    let dy₄ ← take
    let dx₅ ← take
    let dy₅ ← take
    let d₆ ← take
    let dx := dx₁ + dx₂ + dx₃ + dx₄ + dx₅
    let dy := dy₁ + dy₂ + dy₃ + dy₄ + dy₅
    draw (.curve dx₁ dy₁ dx₂ dy₂ dx₃ dy₃)
    draw (.curve dx₄ dy₄ dx₅ dy₅ (flexEnd dx dy d₆).1 (flexEnd dx dy d₆).2)
    clear

def MoveOperator.minimum : MoveOperator → Nat
  | rmoveto => 2
  | hmoveto | vmoveto => 1

-- A surplus operand in front is the width.
def MoveOperator.work : MoveOperator → Taking α Unit
  | rmoveto => do
    let _ ← takeLeading (2 < ·)
    let dx ← take
    let dy ← take
    move dx dy
    clear
  | hmoveto => do
    let _ ← takeLeading (1 < ·)
    let dx ← take
    move dx Scalar.zero
    clear
  | vmoveto => do
    let _ ← takeLeading (1 < ·)
    let dy ← take
    move Scalar.zero dy
    clear

end

namespace Taking

open Segment

variable {α β γ : Type} {x : Taking α β} {f : β → Taking α γ} {b : β} {n turns : Nat}
  {w w' : Work α} {operands rest : List α} {path : PathBuilder α}

theorem on_bind (x : Taking α β) (f : β → Taking α γ) (w : Work α) :
    (x >>= f).on w =
      match x.on w with
      | (.ok b, w') => (f b).on w'
      | (.error e, w') => (.error e, w') := by
  simp only [on, ExceptT.run_bind, StateT.run_bind]
  rcases x.run.run w with ⟨e | b, w'⟩ <;> rfl

theorem on_bind_ok (h : x.on w = (.ok b, w')) : (x >>= f).on w = (f b).on w' := by
  rw [on_bind, h]

theorem on_bind_error {e : DecodeError} (h : x.on w = (.error e, w')) :
    (x >>= f).on w = (.error e, w') := by
  rw [on_bind, h]

theorem on_require (h : n ≤ w.operands.length) : (require n).on w = (.ok (), w) := by
  change (if _ then _ else _ : Taking α Unit).on w = _
  rw [if_neg (Nat.not_lt_of_le h)]
  rfl

theorem on_require_few (h : w.operands.length < n) :
    (require n).on w = (.error .stackUnderflow, w) := by
  change (if _ then _ else _ : Taking α Unit).on w = _
  rw [if_pos h]
  rfl

theorem on_takeLeading {isThere : Nat → Bool} {lead : Option α}
    (h : isThere (lead.toList ++ operands).length = lead.isSome) :
    (takeLeading isThere).on ⟨lead.toList ++ operands, path⟩ = (.ok lead, ⟨operands, path⟩) := by
  change (if isThere (lead.toList ++ operands).length then _ else _ : Taking α _).on _ = _
  rw [h]
  cases lead <;> rfl

theorem on_go {turn : β → Taking α β} :
    (whileLeft.go n turn (turns + 1) b).on w =
      if n ≤ w.operands.length then
        (turn b >>= whileLeft.go n turn turns).on w
      else
        (.ok (), w) := by
  change (if _ then _ else _ : Taking α Unit).on w = _
  split <;> rfl

theorem lt_length_append (hn : 0 < n) (g : Vector α n) (rest : List α) :
    rest.length < (g.toList ++ rest).length := by
  rw [List.length_append, Vector.length_toList]
  omega

variable [Scalar α] {turn : β → Taking α β} {segments : β → List α → List (Segment α)}

-- Each turn draws the next of these segments, and there are none where no turn is taken.
structure Turns (n : Nat) (turn : β → Taking α β) (segments : β → List α → List (Segment α)) :
    Prop where
  pos : 0 < n
  stop : ∀ b operands, operands.length < n → segments b operands = []
  next : ∀ b operands, n ≤ operands.length → ∃ s b' rest,
    rest.length < operands.length ∧ segments b operands = s :: segments b' rest ∧
    ∀ path, (turn b).on ⟨operands, path⟩ = (.ok b', ⟨rest, s.draw path⟩)

theorem Turns.on_go (t : Turns n turn segments) (h : operands.length ≤ turns) :
    ∃ rest, rest.length < n ∧ (whileLeft.go n turn turns b).on ⟨operands, path⟩ =
      (.ok (), ⟨rest, drawAll path (segments b operands)⟩) := by
  induction turns generalizing b operands path with
  | zero =>
    have hl : operands.length < n := Nat.lt_of_le_of_lt h t.pos
    exact ⟨operands, hl, by rw [t.stop b operands hl]; rfl⟩
  | succ turns ih =>
    rw [Taking.on_go]
    split
    case isTrue hl =>
      have ⟨s, b', rest, hr, hs, ht⟩ := t.next b operands hl
      have ⟨rest', hr', hg⟩ := @ih b' rest (s.draw path) (by omega)
      exact ⟨rest', hr', by rw [on_bind_ok (ht path), hg, hs]; rfl⟩
    case isFalse hl =>
      have hl := Nat.lt_of_not_le hl
      exact ⟨operands, hl, by rw [t.stop b operands hl]; rfl⟩

theorem Turns.on_whileLeft (t : Turns n turn segments) (b : β) (operands : List α)
    (path : PathBuilder α) :
    ∃ rest, rest.length < n ∧ (whileLeft n turn b).on ⟨operands, path⟩ =
      (.ok (), ⟨rest, drawAll path (segments b operands)⟩) :=
  t.on_go (Nat.le_refl _)

theorem on_drawLine (g : Vector α 2) (rest : List α) (path : PathBuilder α) :
    drawLine.on ⟨g.toList ++ rest, path⟩ = (.ok (), ⟨rest, (ofPair g).draw path⟩) := by
  rw [toList_two]
  rfl

theorem on_drawCurve (g : Vector α 6) (rest : List α) (path : PathBuilder α) :
    drawCurve.on ⟨g.toList ++ rest, path⟩ = (.ok (), ⟨rest, (ofSix g).draw path⟩) := by
  rw [toList_six]
  rfl

theorem turns_drawLine : Turns (α := α) 2 (fun (_ : Unit) => drawLine) fun _ => lines where
  pos := by decide
  stop _ _ := lines_short
  next _ operands h := by
    obtain ⟨g, rest, rfl⟩ := exists_front operands h
    refine ⟨ofPair g, (), rest, lt_length_append (by decide) g rest, ?_, on_drawLine g rest⟩
    rw [toList_two]
    rfl

theorem turns_drawCurve : Turns (α := α) 6 (fun (_ : Unit) => drawCurve) fun _ => curves where
  pos := by decide
  stop _ _ := curves_short
  next _ operands h := by
    obtain ⟨g, rest, rfl⟩ := exists_front operands h
    refine ⟨ofSix g, (), rest, lt_length_append (by decide) g rest, ?_, on_drawCurve g rest⟩
    rw [toList_six]
    rfl

theorem turns_drawAlongAxis : Turns (α := α) 1 drawAlongAxis Segment.alternatingLines where
  pos := by decide
  stop _ operands h := by
    cases operands with
    | nil      => rfl
    | cons _ _ => exact absurd h (by simp)
  next isHorizontal operands h := by
    obtain ⟨d, rest, rfl⟩ := List.exists_cons_of_length_pos h
    exact ⟨alongAxis isHorizontal d, !isHorizontal, rest, Nat.lt_succ_self _, rfl, fun _ => rfl⟩

theorem turns_drawHorizontal : Turns (α := α) 4 drawHorizontal horizontalCurves where
  pos := by decide
  stop dy operands h := horizontalCurves_flat dy [] h
  next dy operands h := by
    obtain ⟨g, rest, rfl⟩ := exists_front operands h
    refine ⟨curve g[0] dy g[1] g[2] g[3] Scalar.zero, Scalar.zero, rest,
      lt_length_append (by decide) g rest, ?_, fun _ => ?_⟩
    all_goals
      rw [toList_four]
      rfl

theorem turns_drawVertical : Turns (α := α) 4 drawVertical verticalCurves where
  pos := by decide
  stop dx operands h := verticalCurves_flat dx [] h
  next dx operands h := by
    obtain ⟨g, rest, rfl⟩ := exists_front operands h
    refine ⟨curve dx g[0] g[1] g[2] Scalar.zero g[3], Scalar.zero, rest,
      lt_length_append (by decide) g rest, ?_, fun _ => ?_⟩
    all_goals
      rw [toList_four]
      rfl

-- The operand behind the last group is taken together with it.
theorem turns_drawBetweenAxes : Turns (α := α) 4 drawBetweenAxes Segment.alternatingCurves where
  pos := by decide
  stop isHorizontal operands h := alternatingCurves_flat isHorizontal [] h
  next isHorizontal operands h := by
    obtain ⟨g, rest, rfl⟩ := exists_front operands h
    have hl := lt_length_append (by decide) g rest
    rw [toList_four] at hl ⊢
    refine ⟨betweenAxes isHorizontal g[0] g[1] g[2] g[3] (leftOver rest), !isHorizontal,
      if rest.length = 1 then [] else rest, ?_, ?_, fun path => ?_⟩
    case _ =>
      split
      case isTrue  => exact Nat.succ_pos _
      case isFalse => exact hl
    case _ =>
      refine (alternatingCurves_cons ..).trans (congrArg _ ?_)
      match rest with
      | [] | [_] | _ :: _ :: _ => rfl
    case _ =>
      match rest with
      | [] | [_] | _ :: _ :: _ => rfl

-- Lines or curves in a fixed number take just the groups in front.
theorem on_times {x : Taking α Unit} {ofGroup : Vector α n → Segment α}
    (hx : ∀ g rest path, x.on ⟨g.toList ++ rest, path⟩ = (.ok (), ⟨rest, (ofGroup g).draw path⟩))
    (groups : List (Vector α n)) (rest : List α) (path : PathBuilder α) :
    (times groups.length x).on ⟨flat groups ++ rest, path⟩ =
      (.ok (), ⟨rest, drawAll path (groups.map ofGroup)⟩) := by
  induction groups generalizing path with
  | nil => rfl
  | cons g groups ih =>
    rw [flat_cons, List.append_assoc]
    exact (on_bind_ok (hx g _ path)).trans (ih _)

-- The loops of the operators, after which no operand is kept.
theorem Turns.on_clear (t : Turns n turn segments) (b : β) (h : n ≤ operands.length) :
    (do require n; whileLeft n turn b; clear : Taking α Unit).on ⟨operands, path⟩ =
      (.ok (), ⟨[], drawAll path (segments b operands)⟩) := by
  have ⟨rest, _, hw⟩ := t.on_whileLeft b operands path
  exact (on_bind_ok (on_require h)).trans (on_bind_ok hw)

theorem on_alternatingLines (isHorizontal : Bool) (h : 1 ≤ operands.length) :
    (alternatingLines isHorizontal).on ⟨operands, path⟩ =
      (.ok (), ⟨[], drawAll path (Segment.alternatingLines isHorizontal operands)⟩) := by
  have ⟨rest, hr, hw⟩ := turns_drawAlongAxis.on_whileLeft isHorizontal operands path
  obtain rfl := List.eq_nil_of_length_eq_zero (Nat.lt_one_iff.mp hr)
  exact (on_bind_ok (on_require h)).trans hw

end Taking

open Taking Segment

variable {α : Type} [Scalar α] {operands rest : List α} {path : PathBuilder α}

theorem drawAll_append (path : PathBuilder α) (segments segments' : List (Segment α)) :
    drawAll path (segments ++ segments') = drawAll (drawAll path segments) segments' :=
  List.foldl_append

theorem Taking.on_rcurveline (sixes : List (Vector α 6)) (pair : Vector α 2)
    (hr : rest.length < 6) :
    PathOperator.rcurveline.work.on ⟨flat sixes ++ (pair.toList ++ rest), path⟩ =
      (.ok (), ⟨[], drawAll path (sixes.map ofSix ++ [ofPair pair])⟩) := by
  have hl : (flat sixes ++ (pair.toList ++ rest)).length = 6 * sixes.length + (2 + rest.length) := by
    rw [length_flat_append, List.length_append, Vector.length_toList]
  have hn : ((flat sixes ++ (pair.toList ++ rest)).length - 2) / 6 = sixes.length := by omega
  refine (on_bind_ok (on_require (by rw [hl]; omega))).trans ?_
  change (times (((flat sixes ++ (pair.toList ++ rest)).length - 2) / 6) drawCurve >>= _).on _ = _
  rw [hn, on_bind_ok (on_times on_drawCurve sixes _ path), on_bind_ok (on_drawLine pair rest _),
    drawAll_append]
  rfl

theorem Taking.on_rlinecurve (pairs : List (Vector α 2)) (six : Vector α 6)
    (hr : rest.length < 2) :
    PathOperator.rlinecurve.work.on ⟨flat pairs ++ (six.toList ++ rest), path⟩ =
      (.ok (), ⟨[], drawAll path (pairs.map ofPair ++ [ofSix six])⟩) := by
  have hl : (flat pairs ++ (six.toList ++ rest)).length = 2 * pairs.length + (6 + rest.length) := by
    rw [length_flat_append, List.length_append, Vector.length_toList]
  have hn : ((flat pairs ++ (six.toList ++ rest)).length - 6) / 2 = pairs.length := by omega
  refine (on_bind_ok (on_require (by rw [hl]; omega))).trans ?_
  change (times (((flat pairs ++ (six.toList ++ rest)).length - 6) / 2) drawLine >>= _).on _ = _
  rw [hn, on_bind_ok (on_times on_drawLine pairs _ path), on_bind_ok (on_drawCurve six rest _),
    drawAll_append]
  rfl

-- With enough operands, each is there when it is taken, and all that they mean is drawn.
theorem PathOperator.on_work {op : PathOperator} (h : op.minimum ≤ operands.length) :
    op.work.on ⟨operands, path⟩ = (.ok (), ⟨[], drawAll path (op.segments operands)⟩) := by
  cases op with
  | rlineto   => exact turns_drawLine.on_clear () h
  | hlineto   => exact on_alternatingLines true h
  | vlineto   => exact on_alternatingLines false h
  | rrcurveto => exact turns_drawCurve.on_clear () h
  | vhcurveto => exact turns_drawBetweenAxes.on_clear false h
  | hvcurveto => exact turns_drawBetweenAxes.on_clear true h
  | hhcurveto =>
    obtain ⟨lead, fours, rest, hg, hr, rfl⟩ := exists_lead_fours operands h
    rw [segments, withLeading_fours _ _ hg hr]
    exact (on_bind_ok (on_takeLeading (odd_length_lead (even_length_fours fours hr)))).trans
      (turns_drawHorizontal.on_clear _ (le_length_flat_append rest hg))
  | vvcurveto =>
    obtain ⟨lead, fours, rest, hg, hr, rfl⟩ := exists_lead_fours operands h
    rw [segments, withLeading_fours _ _ hg hr]
    exact (on_bind_ok (on_takeLeading (odd_length_lead (even_length_fours fours hr)))).trans
      (turns_drawVertical.on_clear _ (le_length_flat_append rest hg))
  | rcurveline =>
    obtain ⟨sixes, pair, rest, hr, rfl⟩ :=
      exists_groups_before (n := 6) (m := 2) (by decide) operands h
    rw [segments, curvesThenLine_flat sixes pair hr]
    exact on_rcurveline sixes pair hr
  | rlinecurve =>
    obtain ⟨pairs, six, rest, hr, rfl⟩ :=
      exists_groups_before (n := 2) (m := 6) (by decide) operands h
    rw [segments, linesThenCurve_flat pairs six hr]
    exact on_rlinecurve pairs six hr
  | flex =>
    obtain ⟨front, rest, rfl⟩ := exists_front (n := 13) operands h
    match front with
    | ⟨⟨[_, _, _, _, _, _, _, _, _, _, _, _, _]⟩, _⟩ => exact on_bind_ok (on_require h)
  | hflex =>
    obtain ⟨front, rest, rfl⟩ := exists_front (n := 7) operands h
    match front with
    | ⟨⟨[_, _, _, _, _, _, _]⟩, _⟩ => exact on_bind_ok (on_require h)
  | hflex1 =>
    obtain ⟨front, rest, rfl⟩ := exists_front (n := 9) operands h
    match front with
    | ⟨⟨[_, _, _, _, _, _, _, _, _]⟩, _⟩ => exact on_bind_ok (on_require h)
  | flex1 =>
    obtain ⟨front, rest, rfl⟩ := exists_front (n := 11) operands h
    match front with
    | ⟨⟨[dx₁, dy₁, dx₂, dy₂, dx₃, dy₃, dx₄, dy₄, dx₅, dy₅, d₆]⟩, _⟩ =>
      refine (on_bind_ok (on_require h)).trans ?_
      change (_, Work.mk [] (drawAll path [_, curve dx₄ dy₄ dx₅ dy₅ (flexEnd ..).1 (flexEnd ..).2])) =
        (_, Work.mk [] (drawAll path (if _ then _ else _)))
      rw [flexEnd]
      split <;> rfl

theorem PathOperator.on_work_few {op : PathOperator} (h : operands.length < op.minimum) :
    ∃ rest, op.work.on ⟨operands, path⟩ = (.error .stackUnderflow, ⟨rest, path⟩) := by
  cases op with
  | hhcurveto | vvcurveto =>
    obtain ⟨lead, tail, he, rfl⟩ := exists_lead operands
    have hl : tail.length < 4 := by
      rw [List.length_append] at h
      exact Nat.lt_of_le_of_lt (Nat.le_add_left ..) h
    exact ⟨tail, (on_bind_ok (on_takeLeading (odd_length_lead he))).trans
      (on_bind_error (on_require_few hl))⟩
  | _ => exact ⟨operands, on_bind_error (on_require_few h)⟩

end PdfGraphics.Charstring
