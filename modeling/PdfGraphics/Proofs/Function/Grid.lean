import Mathlib.Algebra.BigOperators.Group.List.Basic
import PdfGraphics.Function.Sampled
/-!
The grid of a sampled function.

A corner's number counts grid points with the first axis varying fastest. On each axis it takes a
position below the axis' size, so it stays below the number of all grid points.
-/

namespace PdfGraphics.Function

variable {α : Type} [Scalar α]

namespace GridCell

-- Both positions are on the axis.
structure OnGrid (c : GridCell α) : Prop where
  lower : c.lower < c.size
  upper : c.upper < c.size

-- The number of axes on which a corner has two positions to choose from.
def shift (cells : List (GridCell α)) : Nat :=
  cells.countP isInterpolated

-- The number of grid points.
def points (cells : List (GridCell α)) : Nat :=
  (cells.map size).prod

variable {c : GridCell α} {cells : List (GridCell α)} {corners : List (Corner α)} {stride : Nat}

theorem length_split :
    (c.split stride corners).length = (if c.isInterpolated then 2 else 1) * corners.length := by
  unfold split
  split
  case isTrue  => rw [List.length_append, List.length_map, List.length_map, Nat.two_mul]
  case isFalse => rw [List.length_map, Nat.one_mul]

theorem length_cornersFrom :
    (cornersFrom stride corners cells).length = 2 ^ shift cells * corners.length := by
  induction cells generalizing stride corners with
  | nil             => exact (Nat.one_mul _).symm
  | cons c cells ih =>
    rw [cornersFrom, ih, length_split, shift, shift, List.countP_cons, ← Nat.mul_assoc]
    split
    case isTrue  => rw [Nat.pow_succ]
    case isFalse => rw [Nat.mul_one, Nat.add_zero]

theorem length_corners (cells : List (GridCell α)) :
    (GridCell.corners cells).length = 2 ^ shift cells :=
  length_cornersFrom.trans (Nat.mul_one _)

-- On the axis with this stride, any of its positions leaves the numbers below the next stride.
theorem entry_lt_step {entry position size : Nat} (he : entry < stride) (hp : position < size) :
    entry + position * stride < stride * size := by
  calc
    entry + position * stride < stride + position * stride := Nat.add_lt_add_right he _
    _ = stride * (position + 1) := by rw [Nat.mul_succ, Nat.add_comm, Nat.mul_comm]
    _ ≤ stride * size := Nat.mul_le_mul_left _ hp

theorem entry_lt_of_split (hc : c.OnGrid) (h : ∀ k ∈ corners, k.entry < stride) :
    ∀ k ∈ c.split stride corners, k.entry < stride * c.size := by
  intro k hk
  unfold split at hk
  split at hk
  case isTrue =>
    cases List.mem_append.mp hk with
    | inl hk =>
      have ⟨k', hk', he⟩ := List.mem_map.mp hk
      exact he ▸ entry_lt_step (h k' hk') hc.lower
    | inr hk =>
      have ⟨k', hk', he⟩ := List.mem_map.mp hk
      exact he ▸ entry_lt_step (h k' hk') hc.upper
  case isFalse =>
    have ⟨k', hk', he⟩ := List.mem_map.mp hk
    exact he ▸ entry_lt_step (h k' hk') hc.lower

theorem entry_lt_of_cornersFrom (hc : ∀ c ∈ cells, c.OnGrid) (h : ∀ k ∈ corners, k.entry < stride) :
    ∀ k ∈ cornersFrom stride corners cells, k.entry < stride * points cells := by
  induction cells generalizing stride corners with
  | nil             => simpa [cornersFrom, points] using h
  | cons c cells ih =>
    have ⟨hc, hcs⟩ := List.forall_mem_cons.mp hc
    rw [points, List.map_cons, List.prod_cons, ← Nat.mul_assoc]
    exact ih hcs (entry_lt_of_split hc h)

theorem entry_lt_points (hc : ∀ c ∈ cells, c.OnGrid) {k : Corner α}
    (hk : k ∈ GridCell.corners cells) : k.entry < points cells := by
  have h₀ : ∀ k ∈ [(⟨Scalar.one, 0⟩ : Corner α)], k.entry < 1 := by simp
  have h := entry_lt_of_cornersFrom hc h₀ k hk
  rwa [Nat.one_mul] at h

-- An axis with two positions to choose from has at least two.
theorem two_pow_shift_le (hc : ∀ c ∈ cells, c.OnGrid) : 2 ^ shift cells ≤ points cells := by
  induction cells with
  | nil             => exact Nat.le_refl 1
  | cons c cells ih =>
    have ⟨hc, hcs⟩ := List.forall_mem_cons.mp hc
    rw [shift, points, List.countP_cons, List.map_cons, List.prod_cons]
    have hl := hc.lower
    have hu := hc.upper
    split
    case isTrue hi =>
      have hn : c.lower ≠ c.upper := by
        intro he
        simp [isInterpolated, he] at hi
      rw [Nat.pow_succ, Nat.mul_comm]
      exact Nat.mul_le_mul (by omega) (ih hcs)
    case isFalse =>
      rw [Nat.add_zero, ← Nat.one_mul (2 ^ _)]
      exact Nat.mul_le_mul (by omega) (ih hcs)

end GridCell

theorem Axis.onGrid_cell {a : Axis α} (h : a.size ≠ 0) (x : α) : (a.cell x).OnGrid where
  lower := by simp only [cell]; omega
  upper := by simp only [cell]; omega

namespace Sampled

variable {s : Sampled α} {inputs outputs : List α} {channel point v : Nat}

-- A table with a sample of each channel at each grid point.
structure Filled (s : Sampled α) : Prop where
  axes : ∀ a ∈ s.axes, a.size ≠ 0
  channels : s.channels.length ≠ 0
  samples : s.samples.size = s.channels.length * (s.axes.map Axis.size).prod
  addressable : s.samples.size < UInt64.size

theorem cells_eq (s : Sampled α) (inputs : List α) :
    s.cells inputs = (s.axes.zip inputs).map fun p => p.1.cell p.2 := by
  rw [List.map_zip_eq_zipWith]
  rfl

theorem points_cells (hl : inputs.length = s.axes.length) :
    GridCell.points (s.cells inputs) = (s.axes.map Axis.size).prod := by
  have hs : (s.cells inputs).map GridCell.size = s.axes.map Axis.size := by
    conv => rhs; rw [← List.map_fst_zip (Nat.le_of_eq hl.symm)]
    rw [cells_eq, List.map_map, List.map_map]
    rfl
  rw [GridCell.points, hs]

omit [Scalar α] in
theorem lookup_eq_ok :
    s.lookup channel point = .ok v ↔ s.samples[point * s.channels.length + channel]? = some v :=
  need_eq_ok

theorem output_eq_ok {corners : List (Corner α)} {c : Channel α} {y : α} :
    s.output corners c channel = .ok y ↔ ∃ mean, s.mean corners channel = .ok mean ∧
      c.range.clip (interpolate mean Scalar.zero (Scalar.ofNat s.maxSample) c.decode.1
        c.decode.2) = y := by
  simp only [output, bind_eq_ok, pure, Except.pure, Except.ok.injEq]

-- There is an output for each channel.
theorem evaluate_eq_ok : s.evaluate inputs = .ok outputs ↔
    s.channels.mapIdx (fun i channel => s.output (GridCell.corners (s.cells inputs)) channel i) =
      outputs.map .ok := by
  rw [evaluate, mapM_eq_ok, List.mapIdx_eq_zipIdx_map]

theorem length_evaluate (h : s.evaluate inputs = .ok outputs) :
    outputs.length = s.channels.length := by
  simpa using (congrArg List.length (evaluate_eq_ok.mp h)).symm

theorem getElem?_evaluate (h : s.evaluate inputs = .ok outputs) {y : α}
    (hy : outputs[channel]? = some y) : ∃ c, s.channels[channel]? = some c ∧
      s.output (GridCell.corners (s.cells inputs)) c channel = .ok y := by
  have hc := congrArg (·[channel]?) (evaluate_eq_ok.mp h)
  rw [List.getElem?_mapIdx, List.getElem?_map, hy] at hc
  exact Option.map_eq_some_iff.mp hc

namespace Filled

theorem onGrid (h : s.Filled) (inputs : List α) : ∀ c ∈ s.cells inputs, c.OnGrid := by
  intro c hc
  rw [cells_eq] at hc
  have ⟨⟨a, x⟩, hm, he⟩ := List.mem_map.mp hc
  exact he ▸ Axis.onGrid_cell (h.axes a (List.of_mem_zip hm).left) x

-- The number of corners, as a power of two, fits in a 64-bit word.
theorem shift_lt (h : s.Filled) (hl : inputs.length = s.axes.length) :
    GridCell.shift (s.cells inputs) < 64 := by
  refine (Nat.pow_lt_pow_iff_right (a := 2) (by decide)).mp ?_
  calc
    2 ^ GridCell.shift (s.cells inputs) ≤ GridCell.points (s.cells inputs) :=
      GridCell.two_pow_shift_le (h.onGrid inputs)
    _ = (s.axes.map Axis.size).prod := points_cells hl
    _ ≤ s.samples.size := by
      rw [h.samples]
      exact Nat.le_mul_of_pos_left _ (Nat.pos_of_ne_zero h.channels)
    _ < 2 ^ 64 := h.addressable

-- Every sample that a corner stands for is in the table.
theorem sample_lt (h : s.Filled) (hl : inputs.length = s.axes.length) {k : Corner α}
    (hk : k ∈ GridCell.corners (s.cells inputs)) (hc : channel < s.channels.length) :
    k.entry * s.channels.length + channel < s.samples.size := by
  have he := GridCell.entry_lt_points (h.onGrid inputs) hk
  rw [points_cells hl] at he
  rw [h.samples, Nat.add_comm]
  exact GridCell.entry_lt_step hc he

theorem exists_lookup (h : s.Filled) (hl : inputs.length = s.axes.length) {k : Corner α}
    (hk : k ∈ GridCell.corners (s.cells inputs)) (hc : channel < s.channels.length) :
    ∃ v, s.lookup channel k.entry = .ok v :=
  ⟨_, lookup_eq_ok.mpr (Array.getElem?_eq_getElem (h.sample_lt hl hk hc))⟩

theorem exists_mean (h : s.Filled) (hl : inputs.length = s.axes.length)
    (hc : channel < s.channels.length) :
    ∃ mean, s.mean (GridCell.corners (s.cells inputs)) channel = .ok mean := by
  have ⟨terms, ht⟩ := exists_mapM_eq_ok fun k hk =>
    have ⟨v, hv⟩ := h.exists_lookup hl hk hc
    ⟨k.weight * Scalar.ofNat v, bind_eq_ok.mpr ⟨v, hv, rfl⟩⟩
  exact ⟨terms.foldl (· + ·) Scalar.zero, bind_eq_ok.mpr ⟨terms, ht, rfl⟩⟩

-- Evaluation finds every sample that it looks for.
theorem exists_evaluate (h : s.Filled) (hl : inputs.length = s.axes.length) :
    ∃ outputs, s.evaluate inputs = .ok outputs := by
  refine exists_mapM_eq_ok fun (channel, i) hi => ?_
  have ⟨mean, hm⟩ := h.exists_mean hl (List.snd_lt_of_mem_zipIdx hi)
  exact ⟨_, output_eq_ok.mpr ⟨mean, hm, rfl⟩⟩

end Filled

end Sampled

end PdfGraphics.Function
