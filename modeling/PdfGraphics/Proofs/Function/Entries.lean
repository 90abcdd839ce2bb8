import PdfGraphics.Function.Exponential
import PdfGraphics.Proofs.Scalar.Order
/-!
The lists of a dictionary.

A dictionary lists intervals by their ends, one behind the other. What is read from such a list
holds all of it.
-/

namespace PdfGraphics

namespace Function

theorem refuse_eq_ok {condition : Bool} {m : Malformation} {u : Unit} :
    refuse condition m = .ok u ↔ condition = false := by
  cases condition <;> simp [refuse, fault]

theorem onlyInput_eq_ok {β : Type} {domain : List (Span β)} {m : Malformation} {d : Span β} :
    onlyInput domain m = .ok d ↔ domain = [d] := by
  unfold onlyInput
  split
  case h_1 => simp
  case h_2 hd => exact ⟨nofun, fun h => absurd h (hd d)⟩

variable {β : Type}

-- A range, where there is one, has as many intervals as there are outputs.
theorem checkRange_eq_ok {γ : Type} {n : Nat} {range : Option (List (Span β))}
    {m : List (Span β) → Malformation} {rest : Except EvalError γ} {c : γ} :
    (match range with
      | some spans => do
        refuse (spans.length != n) (m spans)
        rest
      | _ => rest) = .ok c ↔
    (∀ spans, range = some spans → spans.length = n) ∧ rest = .ok c := by
  cases range with
  | none       => exact ⟨fun h => ⟨nofun, h⟩, fun h => h.right⟩
  | some spans => simp [bind_eq_ok, refuse_eq_ok]

-- The opposite of taking values two by two.
def flat (ps : List (β × β)) : List β :=
  ps.flatMap fun p => [p.1, p.2]

theorem flat_pairs {values : List β} (h : values.length % 2 = 0) :
    flat (pairs values) = values := by
  fun_induction pairs values with
  | case1 a b rest ih =>
    have hr : rest.length % 2 = 0 := by
      simp only [List.length_cons] at h
      omega
    exact congrArg (fun values => a :: b :: values) (ih hr)
  | case2 values hv =>
    cases values with
    | nil => rfl
    | cons a rest =>
      cases rest with
      | nil         => simp at h
      | cons b rest => exact absurd rfl (hv a b rest)

theorem pairs_flat (ps : List (β × β)) : pairs (flat ps) = ps := by
  induction ps with
  | nil          => rfl
  | cons p ps ih => exact congrArg (List.cons p) ih

theorem length_flat (ps : List (β × β)) : (flat ps).length = 2 * ps.length := by
  induction ps with
  | nil          => rfl
  | cons p ps ih =>
    rw [flat, List.flatMap_cons, List.length_append, ← flat, ih, List.length_cons]
    simp only [List.length_cons, List.length_nil]
    omega

theorem length_pairs {values : List β} {n : Nat} (h : values.length = 2 * n) :
    (pairs values).length = n := by
  have hf : flat (pairs values) = values := flat_pairs (by omega)
  have hl := length_flat (pairs values)
  rw [hf] at hl
  omega

theorem getElem?_flat (ps : List (β × β)) (i : Nat) :
    (flat ps)[2 * i]? = ps[i]?.map (·.1) ∧ (flat ps)[2 * i + 1]? = ps[i]?.map (·.2) := by
  induction ps generalizing i with
  | nil          => exact ⟨rfl, rfl⟩
  | cons p ps ih =>
    cases i with
    | zero   => exact ⟨rfl, rfl⟩
    | succ i => exact ih i

-- The ends of intervals, as a dictionary lists them.
def ends (spans : List (Span β)) : List β :=
  spans.flatMap fun s => [s.lo, s.hi]

theorem ends_eq_flat (spans : List (Span β)) :
    ends spans = flat (spans.map fun s => (s.lo, s.hi)) := by
  rw [flat, List.flatMap_map]
  rfl

theorem ends_inj {a b : List (Span β)} (h : ends a = ends b) : a = b := by
  have hp := congrArg pairs h
  rw [ends_eq_flat, ends_eq_flat, pairs_flat, pairs_flat] at hp
  refine (List.map_inj_right fun s t hs => ?_).mp hp
  cases s
  cases t
  cases hs
  rfl

variable {α : Type} [Scalar α]

theorem intervals_eq_ok {key : FunctionKey} {values : List α} {spans : List (Span α)}
    (h : intervals key values = .ok spans) :
    spans ≠ [] ∧ values = ends spans ∧ ∀ s ∈ spans, s.lo ≤ s.hi := by
  simp only [intervals, bind_eq_ok, refuse_eq_ok] at h
  have ⟨_, hv, _, ho, hs⟩ := h
  cases hs
  have ⟨hn, he⟩ : values ≠ [] ∧ values.length % 2 = 0 := by simpa using hv
  refine ⟨fun hp => hn ?_, ?_, fun s hs => ?_⟩
  case _ =>
    rw [← flat_pairs he, List.map_eq_nil_iff.mp hp]
    rfl
  case _ =>
    rw [ends_eq_flat, List.map_map]
    exact (flat_pairs he).symm.trans (congrArg flat (List.map_id _).symm)
  case _ =>
    have ⟨p, hp, hs⟩ := List.mem_map.mp hs
    have hlo := List.any_eq_false.mp ho p hp
    rw [← hs]
    simpa using hlo

-- A range that was read from a dictionary's entry, if there is one.
structure RangeRead (entries : FunctionDict.Entries α) (range : Option (List (Span α))) : Prop where
  entry : entries.range = range.map ends
  nonempty : ∀ spans, range = some spans → spans ≠ []
  ordered : ∀ spans, range = some spans → ∀ s ∈ spans, s.lo ≤ s.hi

theorem rangeRead_of_mapM {entries : FunctionDict.Entries α} {range : Option (List (Span α))}
    (h : entries.range.mapM (intervals .range) = .ok range) : RangeRead entries range := by
  cases hr : entries.range with
  | none        =>
    rw [hr] at h
    cases h
    exact ⟨hr, nofun, nofun⟩
  | some values =>
    rw [hr] at h
    have ⟨spans, hi, hs⟩ := map_eq_ok.mp h
    have ⟨hn, he, ho⟩ := intervals_eq_ok hi
    cases hs
    refine ⟨by rw [hr, he]; rfl, fun spans hs => ?_, fun spans hs => ?_⟩ <;> cases hs
    case _ => exact hn
    case _ => exact ho

-- A range that may be missing, or else has an interval for each of `n` outputs.
def RangeFits (range : Option (List (Span α))) (n : Nat) : Prop :=
  ∀ spans, range = some spans → spans.length = n ∧ ∀ s ∈ spans, s.lo ≤ s.hi

theorem length_clipTo {range : Option (List (Span α))} {outputs : List α}
    (h : RangeFits range outputs.length) : (clipTo range outputs).length = outputs.length := by
  cases range with
  | none       => rfl
  | some spans =>
    have ⟨hl, _⟩ := h spans rfl
    exact (List.length_zipWith ..).trans (by rw [hl, Nat.min_self])

-- Each output lies in its interval of those that a dictionary lists, so it is a number.
def Confined (range outputs : List Float32) : Prop :=
  range.length = 2 * outputs.length ∧ ∀ j y, outputs[j]? = some y →
    ∃ lo hi, range[2 * j]? = some lo ∧ range[2 * j + 1]? = some hi ∧ lo ≤ y ∧ y ≤ hi ∧
      Scalar.isNumber y

variable {spans : List (Span Float32)} {outputs : List Float32}

-- Clipping to ordered intervals confines, whatever is clipped.
theorem confined_of_clip (hl : spans.length = outputs.length) (hs : ∀ s ∈ spans, s.lo ≤ s.hi)
    (h : ∀ (j : Nat) y, outputs[j]? = some y → ∃ s v, spans[j]? = some s ∧ Span.clip s v = y) :
    Confined (ends spans) outputs := by
  refine ⟨by rw [ends_eq_flat, length_flat, List.length_map, hl], fun j y hj => ?_⟩
  have ⟨s, v, hs', hy⟩ := h j y hj
  have ⟨hlo, hhi⟩ := Binary32.clamp_mem (hs s (List.mem_of_getElem? hs')) v
  have ⟨h₁, h₂⟩ := getElem?_flat (spans.map fun s => (s.lo, s.hi)) j
  rw [List.getElem?_map, hs'] at h₁ h₂
  rw [← hy, ends_eq_flat]
  exact ⟨s.lo, s.hi, h₁, h₂, hlo, hhi, Binary32.isNumber_of_le hlo⟩

theorem confined_clipTo {range : Option (List (Span Float32))} {values : List Float32}
    (hv : range.map ends = some values) (h : RangeFits range outputs.length) :
    Confined values (clipTo range outputs) := by
  have ⟨spans, hr, he⟩ := Option.map_eq_some_iff.mp hv
  have ⟨hl, hs⟩ := h spans hr
  rw [← he]
  refine confined_of_clip (hl.trans (length_clipTo h).symm) hs fun j y hj => ?_
  rw [clipTo, hr] at hj
  have ⟨s, v, hs, _, hy⟩ := List.getElem?_zipWith_eq_some.mp hj
  exact ⟨s, v, hs, hy⟩

end Function

end PdfGraphics
