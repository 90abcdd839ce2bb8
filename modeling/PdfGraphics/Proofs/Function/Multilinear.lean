import PdfGraphics.Proofs.Function.Corners
import PdfGraphics.Proofs.Function.Reading
/-!
Sampled functions as multilinear interpolation, in exact numbers.

Each output is the mean of the samples at all corners of the cell around the inputs. Leaving out the
corners that weigh nothing makes no difference to it.
-/

namespace PdfGraphics.Function

open GridCell

namespace Axis

variable {a : Axis ℚ}

-- An input as a position on the grid: brought into the domain, taken along the line that the domain
-- is mapped by, and brought onto the grid.
def encoded (a : Axis ℚ) (x : ℚ) : ℚ :=
  let y := min (max x a.domain.lo) a.domain.hi
  let e :=
    if a.domain.hi = a.domain.lo then
      a.encode.1
    else
      a.encode.1 +
        (y - a.domain.lo) * (a.encode.2 - a.encode.1) / (a.domain.hi - a.domain.lo)
  min (max e 0) (a.size - 1)

-- The cell around an input.
def around (a : Axis ℚ) (x : ℚ) : GridCell ℚ where
  lower := ⌊a.encoded x⌋₊
  upper := min (⌊a.encoded x⌋₊ + 1) (a.size - 1)
  t     := a.encoded x - ⌊a.encoded x⌋₊
  size  := a.size

theorem encoded_nonneg (h : a.size ≠ 0) (x : ℚ) : 0 ≤ a.encoded x := by
  have hs : (1 : ℚ) ≤ a.size := by exact_mod_cast Nat.one_le_iff_ne_zero.mpr h
  exact le_min (le_max_right ..) (by linarith)

theorem encoded_le (h : a.size ≠ 0) (x : ℚ) : a.encoded x ≤ (a.size - 1 : Nat) := by
  rw [Nat.cast_sub (Nat.one_le_iff_ne_zero.mpr h), Nat.cast_one]
  exact min_le_right ..

theorem cell_eq (hd : a.domain.lo ≤ a.domain.hi) (h : a.size ≠ 0) (x : ℚ) :
    a.cell x = a.around x := by
  have hlast : (0 : ℚ) ≤ (a.size - 1 : Nat) := Nat.cast_nonneg _
  have he : Scalar.clamp (interpolate (a.domain.clip x) a.domain.lo a.domain.hi a.encode.1
      a.encode.2) Scalar.zero (Scalar.ofNat (a.size - 1)) = a.encoded x := by
    rw [Rational.zero_eq, Rational.ofNat_eq, Rational.clamp_eq hlast, interpolate, Span.clip,
      Rational.clamp_eq hd, Nat.cast_sub (Nat.one_le_iff_ne_zero.mpr h), Nat.cast_one]
    simp only [beq_iff_eq]
    rfl
  have hf : ⌊a.encoded x⌋₊ ≤ a.size - 1 := Nat.floor_le_of_le (encoded_le h x)
  simp only [cell, he]
  simp only [Rational.toNat_eq, Rational.ofNat_eq, Nat.min_eq_left hf]
  rfl

theorem around_nonneg (h : a.size ≠ 0) (x : ℚ) : 0 ≤ (a.around x).t :=
  sub_nonneg.mpr (Nat.floor_le (encoded_nonneg h x))

-- The positions are the same only at the end of the grid, which an input cannot be beyond.
theorem fair_around (h : a.size ≠ 0) (x : ℚ) : (a.around x).Fair where
  nonneg := around_nonneg h x
  le_one := by
    have := Nat.lt_floor_add_one (a.encoded x)
    simp only [around]
    linarith
  whole hb := by
    by_contra ht
    have hpos := lt_of_le_of_ne (around_nonneg h x) (Ne.symm ht)
    have hsame : (a.around x).lower = (a.around x).upper := by_contra fun hne => hb ⟨hne, hpos⟩
    have hend : a.size - 1 ≤ ⌊a.encoded x⌋₊ := by
      simp only [around] at hsame
      omega
    have hle := (encoded_le h x).trans (Nat.cast_le.mpr hend)
    exact absurd hpos (not_lt.mpr (sub_nonpos.mpr hle))

theorem onGrid_around (hd : a.domain.lo ≤ a.domain.hi) (h : a.size ≠ 0) (x : ℚ) :
    (a.around x).OnGrid :=
  cell_eq hd h x ▸ onGrid_cell h x

end Axis

namespace Sampled

variable {s : Sampled ℚ}

-- The cells around inputs.
def around (s : Sampled ℚ) (x : Fin s.axes.length → ℚ) : Fin s.axes.length → GridCell ℚ :=
  fun i => s.axes[i].around (x i)

-- The sample of a channel at a grid point.
def sample (s : Sampled ℚ) (j point : Nat) : ℚ :=
  (s.samples.getD (point * s.channels.length + j) 0 : Nat)

-- The mean of a channel's samples at all corners.
def multilinear (s : Sampled ℚ) (x : Fin s.axes.length → ℚ) (j : Nat) : ℚ :=
  ∑ choice, weight (s.around x) choice * s.sample j (entry (s.around x) choice)

-- A table of which the axes have grid points, and domains from a lower to an upper end.
structure Regular (s : Sampled ℚ) : Prop where
  filled : s.Filled
  ordered : ∀ a ∈ s.axes, a.domain.lo ≤ a.domain.hi

theorem Regular.cells_eq (h : s.Regular) (x : Fin s.axes.length → ℚ) :
    s.cells (List.ofFn x) = List.ofFn (s.around x) := by
  refine List.ext_getElem (by simp [cells]) fun i hi _ => ?_
  simp only [cells, List.getElem_zipWith, List.getElem_ofFn]
  have hm := List.getElem_mem (show i < s.axes.length by simpa [cells] using hi)
  exact Axis.cell_eq (h.ordered _ hm) (h.filled.axes _ hm) _

theorem Regular.fair (h : s.Regular) (x : Fin s.axes.length → ℚ) (i : Fin s.axes.length) :
    (s.around x i).Fair :=
  Axis.fair_around (h.filled.axes _ (List.getElem_mem _)) _

theorem Regular.entry_lt (h : s.Regular) (x : Fin s.axes.length → ℚ)
    (choice : Fin s.axes.length → Bool) :
    entry (s.around x) choice < (s.axes.map Axis.size).prod := by
  have hg (i : Fin s.axes.length) : (s.around x i).OnGrid :=
    have hm := List.getElem_mem i.is_lt
    Axis.onGrid_around (h.ordered _ hm) (h.filled.axes _ hm) (x i)
  rw [← Fin.prod_univ_fun_getElem]
  exact GridCell.entry_lt hg choice

theorem lookup_sample {j point : Nat} (h : point * s.channels.length + j < s.samples.size) :
    ∃ v, s.lookup j point = .ok v ∧ (v : ℚ) = s.sample j point :=
  ⟨_, lookup_eq_ok.mpr (Array.getElem?_eq_getElem h), by rw [sample, Array.getElem_eq_getD]⟩

-- Where all samples are in the table, the mean is a sum.
theorem mean_eq {corners : List (Corner ℚ)} {j : Nat}
    (h : ∀ k ∈ corners, k.entry * s.channels.length + j < s.samples.size) :
    s.mean corners j = .ok (corners.map fun k => k.weight * s.sample j k.entry).sum := by
  have ht : (corners.mapM fun k => return k.weight * Scalar.ofNat (← s.lookup j k.entry)) =
      .ok (corners.map fun k => k.weight * s.sample j k.entry) := by
    rw [mapM_eq_ok, List.map_map]
    refine List.map_congr_left fun k hk => ?_
    have ⟨v, hv, he⟩ := lookup_sample (h k hk)
    rw [Function.comp_apply, ← he, hv]
    rfl
  rw [mean, ht, List.sum_eq_foldl]
  rfl

theorem Regular.mean_eq (h : s.Regular) (x : Fin s.axes.length → ℚ) {j : Nat}
    (hj : j < s.channels.length) :
    s.mean (GridCell.corners (s.cells (List.ofFn x))) j = .ok (s.multilinear x j) := by
  rw [Sampled.mean_eq fun k hk => h.filled.sample_lt List.length_ofFn hk hj, h.cells_eq,
    sum_corners _ (h.fair x)]
  exact congrArg _ (sum_visits (h.fair x) fun choice => s.sample j (entry (s.around x) choice))

-- A channel's output before it is decoded. The samples it is a mean of are in the table, and it
-- lies between the least and the greatest of those that are visited.
structure Interpolates (s : Sampled ℚ) (x : Fin s.axes.length → ℚ) (j : Nat) : Prop where
  mean : s.mean (GridCell.corners (s.cells (List.ofFn x))) j = .ok (s.multilinear x j)
  stored : ∀ choice, entry (s.around x) choice * s.channels.length + j < s.samples.size
  bounded : ∃ least greatest, Visits (s.around x) least ∧ Visits (s.around x) greatest ∧
    (∀ choice, Visits (s.around x) choice →
      s.sample j (entry (s.around x) least) ≤ s.sample j (entry (s.around x) choice) ∧
      s.sample j (entry (s.around x) choice) ≤ s.sample j (entry (s.around x) greatest)) ∧
    s.sample j (entry (s.around x) least) ≤ s.multilinear x j ∧
    s.multilinear x j ≤ s.sample j (entry (s.around x) greatest)
  whole : (∀ i, (s.around x i).t = 0) →
    s.multilinear x j = s.sample j (entry (s.around x) fun _ => false)

theorem Regular.interpolates (h : s.Regular) (x : Fin s.axes.length → ℚ) {j : Nat}
    (hj : j < s.channels.length) : s.Interpolates x j where
  mean := h.mean_eq x hj
  stored choice := by
    rw [h.filled.samples, Nat.add_comm]
    exact entry_lt_step hj (h.entry_lt x choice)
  bounded := exists_bounds (h.fair x) fun choice => s.sample j (entry (s.around x) choice)
  whole ht := sum_of_whole (h.fair x) ht fun choice => s.sample j (entry (s.around x) choice)

end Sampled

section Evaluation

variable [RationalAnalysis] {d : FunctionDict ℚ} {table : Sampled ℚ}

theorem regular_of_ofDict (h : ofDict d = .ok (.sampled table)) : table.Regular := by
  have ⟨entries, dicts?⟩ := d
  match of_ofDict h with
  | .inl ⟨_, ht, hf, hh⟩ =>
    cases ht
    rw [ofDict] at h
    simp only [bind_eq_ok, need_eq_ok] at h
    have ⟨_, _, _, _, values, hv, domain, hi, _⟩ := h
    have ⟨_, he, ho⟩ := intervals_eq_ok hi
    have hd : table.axes.map (·.domain) = domain :=
      ends_inj (Option.some.inj (hh.domain.symm.trans (he ▸ hv)))
    exact ⟨hf, fun a ha => ho _ (hd ▸ List.mem_map_of_mem ha)⟩

-- A sampled function that was read takes the means of the samples at all corners of the cell around
-- its inputs, decodes them and brings them into the range.
theorem evaluate_multilinear (h : ofDict d = .ok (.sampled table))
    (x : Fin table.axes.length → ℚ) :
    (sampled table).evaluate (List.ofFn x) =
      .ok (table.channels.mapIdx fun j channel =>
        channel.range.clip
          (interpolate (table.multilinear x j) 0 table.maxSample channel.decode.1
            channel.decode.2)) ∧
    Visited (GridCell.corners (table.cells (List.ofFn x))) (table.around x) ∧
    ∀ j < table.channels.length, table.Interpolates x j := by
  have hr := regular_of_ofDict h
  refine ⟨?_, hr.cells_eq x ▸ visited_corners (hr.fair x), fun _ hj => hr.interpolates x hj⟩
  simp only [evaluate, List.length_ofFn, if_true]
  rw [Sampled.evaluate_eq_ok]
  refine List.ext_getElem (by simp) fun j hj _ => ?_
  rw [List.getElem_mapIdx, List.getElem_map, List.getElem_mapIdx]
  have hm := hr.mean_eq x (by simpa using hj)
  exact Sampled.output_eq_ok.mpr ⟨_, hm, by rw [Rational.zero_eq, Rational.ofNat_eq]⟩

end Evaluation

-- Two samples on each of two axes.
def bilinearDict : FunctionDict ℚ :=
  ⟨{ functionType := some 0, domain := some [0, 1, 0, 1], range := some [0, 255],
      size := some [2, 2], bitsPerSample := some 8, samples := some [0, 100, 200, 255] }, none⟩

def bilinear : Sampled ℚ where
  axes := [⟨⟨0, 1⟩, (0, 1), 2⟩, ⟨⟨0, 1⟩, (0, 1), 2⟩]
  channels := [⟨⟨0, 255⟩, (0, 255)⟩]
  maxSample := 255
  samples := #[0, 100, 200, 255]

-- Halfway along the first axis, at the end of the second: two corners of the four are left out.
theorem evaluate_multilinear_bilinear : letI := RationalAnalysis.exact
    ofDict bilinearDict = .ok (.sampled bilinear) ∧
    (sampled bilinear).evaluate [1 / 2, 1] = .ok [455 / 2] ∧
    Visited (GridCell.corners (bilinear.cells [1 / 2, 1])) (bilinear.around ![1 / 2, 1]) ∧
    bilinear.Interpolates ![1 / 2, 1] 0 := by
  let := RationalAnalysis.exact
  have hd : ofDict bilinearDict = .ok (.sampled bilinear) := by with_unfolding_all rfl
  have ⟨he, hv, hi⟩ := evaluate_multilinear hd ![1 / 2, 1]
  refine ⟨hd, he.trans (congrArg _ ?_), hv, hi 0 (by decide)⟩
  decide +kernel

end PdfGraphics.Function
