import Mathlib.Algebra.Order.Ring.Int
import Mathlib.Data.Prod.Lex
import PdfGraphics.Scalar.Basic
/-!
The order of binary32 numbers.

Any two numbers can be compared, and what is no number cannot be compared with anything. So a
comparison that holds shows both of its sides to be numbers. Among the numbers the order is linear,
as each has a rank and comes before those of a greater rank.
-/

namespace PdfGraphics

open Float.Model (UnpackedFloat)
open Float.Model.UnpackedFloat (Sign)

-- The side of zero that a sign stands for.
def side : Sign → Int
  | .negative => -1
  | .positive => 1

namespace Binary32

variable {x y z : Float32}

theorem le_iff : x ≤ y ↔ (x.toModel.unpack.compare y.toModel.unpack).any Ordering.isLE :=
  decide_eq_true_iff

theorem lt_iff : x < y ↔ x.toModel.unpack.compare y.toModel.unpack = some .lt :=
  decide_eq_true_iff.trans beq_iff_eq

theorem compare_self {u : UnpackedFloat} (h : u ≠ .notANumber) : u.compare u = some .eq := by
  cases u with
  | notANumber     => exact absurd rfl h
  | infinity s     => cases s <;> rfl
  | zero s         => rfl
  | finite s m e _ =>
    have hc : (compare e e).then (compare m m) = .eq := by
      rw [Int.compare_eq_eq.mpr rfl, Nat.compare_eq_eq.mpr rfl]
      rfl
    cases s with
    | positive => exact congrArg some hc
    | negative => exact congrArg (fun o => some o.swap) hc

theorem compare_notANumber (u : UnpackedFloat) : u.compare .notANumber = none := by
  cases u <;> rfl

theorem ne_notANumber_of_le (h : x ≤ y) :
    x.toModel.unpack ≠ .notANumber ∧ y.toModel.unpack ≠ .notANumber := by
  rw [le_iff] at h
  constructor <;> intro hn <;> rw [hn] at h
  case left  => cases h
  case right =>
    rw [compare_notANumber] at h
    cases h

theorem le_of_lt (h : x < y) : x ≤ y := by
  rw [le_iff, lt_iff.mp h]
  rfl

theorem le_self (h : x.toModel.unpack ≠ .notANumber) : x ≤ x := by
  rw [le_iff, compare_self h]
  rfl

-- Zeros are in the middle of the numbers and infinities outermost. Between them first the exponent
-- decides, then the mantissa.
def rank : UnpackedFloat → ℤ ×ₗ ℤ ×ₗ ℤ
  | .notANumber | .zero _ => toLex (0, toLex (0, 0))
  | .finite s m e _       => toLex (side s, toLex (side s * e, side s * m))
  | .infinity s           => toLex (2 * side s, toLex (0, 0))

theorem compare_finite {s t : Sign} {m n : Nat} {e f : Int} {hm : 0 < m} {hn : 0 < n} :
    (UnpackedFloat.finite s m e hm).compare (.finite t n f hn) =
      some (compare (rank (.finite s m e hm)) (rank (.finite t n f hn))) := by
  have hr : compare (rank (.finite s m e hm)) (rank (.finite t n f hn)) =
      (compare (side s) (side t)).then ((compare (side s * e) (side t * f)).then
        (compare (side s * m) (side t * n))) := rfl
  have hc : compare (m : ℤ) n = compare m n := by
    rw [← cmp_eq_compare, ← cmp_eq_compare, Int.natCast_strictMono.cmp_map_eq]
  have hn (a b : ℤ) : compare (-a) (-b) = (compare a b).swap := by
    rw [← cmp_eq_compare, ← cmp_eq_compare, cmp_swap]
    exact strictMono_id.neg.cmp_map_eq a b
  rw [hr]
  cases s <;> cases t
  case negative.negative =>
    change some ((compare e f).then (compare m n)).swap = _
    simp [side, Ordering.swap_then, hn, hc]
  case negative.positive => rfl
  case positive.negative => rfl
  case positive.positive =>
    change some ((compare e f).then (compare m n)) = _
    simp [side, hc]

theorem compare_eq {u v : UnpackedFloat} (hu : u ≠ .notANumber) (hv : v ≠ .notANumber) :
    u.compare v = some (compare (rank u) (rank v)) := by
  cases u with
  | notANumber          => exact absurd rfl hu
  | infinity s | zero s =>
    cases v with
    | notANumber                       => exact absurd rfl hv
    | infinity t | zero t | finite t _ => cases s <;> cases t <;> rfl
  | finite s m e _      =>
    cases v with
    | notANumber          => exact absurd rfl hv
    | infinity t | zero t => cases s <;> cases t <;> rfl
    | finite t n f _      => exact compare_finite

theorem le_iff_rank (hx : x.toModel.unpack ≠ .notANumber) (hy : y.toModel.unpack ≠ .notANumber) :
    x ≤ y ↔ rank x.toModel.unpack ≤ rank y.toModel.unpack := by
  rw [le_iff, compare_eq hx hy, Option.any_some, ← compare_le_iff_le, Ordering.isLE_iff_ne_gt]

theorem lt_iff_rank (hx : x.toModel.unpack ≠ .notANumber) (hy : y.toModel.unpack ≠ .notANumber) :
    x < y ↔ rank x.toModel.unpack < rank y.toModel.unpack := by
  rw [lt_iff, compare_eq hx hy, Option.some_inj, compare_lt_iff_lt]

theorem lt_trans (hxy : x < y) (hyz : y < z) : x < z := by
  have ⟨hx, hy⟩ := ne_notANumber_of_le (le_of_lt hxy)
  have ⟨_, hz⟩ := ne_notANumber_of_le (le_of_lt hyz)
  rw [lt_iff_rank hx hz]
  exact ((lt_iff_rank hx hy).mp hxy).trans ((lt_iff_rank hy hz).mp hyz)

theorem not_lt_of_le (h : x ≤ y) : ¬y < x := by
  have ⟨hx, hy⟩ := ne_notANumber_of_le h
  rw [lt_iff_rank hy hx]
  exact ((le_iff_rank hx hy).mp h).not_gt

theorem lt_of_not_le (hx : x.toModel.unpack ≠ .notANumber) (hy : y.toModel.unpack ≠ .notANumber)
    (h : ¬x ≤ y) : y < x := by
  rw [le_iff_rank hx hy] at h
  exact (lt_iff_rank hy hx).mpr (not_le.mp h)

theorem le_of_not_lt (hx : x.toModel.unpack ≠ .notANumber) (hy : y.toModel.unpack ≠ .notANumber)
    (h : ¬y < x) : x ≤ y :=
  by_contra fun hle => h (lt_of_not_le hx hy hle)

theorem le_trans (hxy : x ≤ y) (hyz : y ≤ z) : x ≤ z := by
  have ⟨hx, hy⟩ := ne_notANumber_of_le hxy
  have ⟨_, hz⟩ := ne_notANumber_of_le hyz
  rw [le_iff_rank hx hz]
  exact ((le_iff_rank hx hy).mp hxy).trans ((le_iff_rank hy hz).mp hyz)

theorem lt_or_lt (hy : y.toModel.unpack ≠ .notANumber) (h : x < z) : x < y ∨ y < z := by
  have ⟨hx, hz⟩ := ne_notANumber_of_le (le_of_lt h)
  rw [lt_iff_rank hx hy, lt_iff_rank hy hz]
  exact (lt_or_ge _ _).imp_right fun hle => hle.trans_lt ((lt_iff_rank hx hz).mp h)

theorem isNumber_iff : Scalar.isNumber x ↔ x.toModel.unpack ≠ .notANumber := by
  have hd : Scalar.isNumber x = (x.toModel.unpack.compare x.toModel.unpack == some .eq) := rfl
  rw [hd, beq_iff_eq]
  constructor
  case mp =>
    intro h hn
    rw [hn] at h
    cases h
  case mpr => exact compare_self

theorem isNumber_of_le (h : x ≤ y) : Scalar.isNumber y :=
  isNumber_iff.mpr (ne_notANumber_of_le h).right

-- Into an interval comes anything, even what is no number.
theorem clamp_mem {lo hi : Float32} (h : lo ≤ hi) (x : Float32) :
    lo ≤ Scalar.clamp x lo hi ∧ Scalar.clamp x lo hi ≤ hi := by
  have ⟨hl, hh⟩ := ne_notANumber_of_le h
  unfold Scalar.clamp
  split
  case isTrue hx =>
    split
    case isTrue hx' => exact ⟨le_of_lt hx, le_of_lt hx'⟩
    case isFalse    => exact ⟨h, le_self hh⟩
  case isFalse => exact ⟨le_self hl, h⟩

end Binary32

end PdfGraphics
