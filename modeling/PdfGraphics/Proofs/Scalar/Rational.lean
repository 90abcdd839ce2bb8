import Mathlib.Algebra.Order.Floor.Semiring
import Mathlib.Data.Rat.Floor
import Mathlib.Data.Rat.Sqrt
import PdfGraphics.Function.Basic
/-!
The formulas read over the rational numbers, which compute without rounding.
-/

namespace PdfGraphics

instance : Scalar ℚ where
  ofNat := Nat.cast
  toNat := Nat.floor
  decLt := inferInstance
  decLe := inferInstance

-- The operations that leave the rational numbers, whatever stands for them.
class RationalAnalysis where
  sqrt : ℚ → ℚ
  pow : ℚ → ℚ → ℚ
  epsilon : ℚ
  isIntegral : ℚ → Bool

instance [RationalAnalysis] : AnalyticScalar ℚ where
  sqrt := RationalAnalysis.sqrt
  pow := RationalAnalysis.pow
  epsilon := RationalAnalysis.epsilon
  isIntegral := RationalAnalysis.isIntegral

-- Roots of squares, and powers to whole numbers.
@[reducible] def RationalAnalysis.exact : RationalAnalysis where
  sqrt := Rat.sqrt
  pow x y := x ^ y.num
  epsilon := 1 / 2 ^ 23
  isIntegral := Rat.isInt

namespace Rational

@[simp] theorem ofNat_eq (n : Nat) : (Scalar.ofNat n : ℚ) = n := rfl

@[simp] theorem zero_eq : (Scalar.zero : ℚ) = 0 := Nat.cast_zero

@[simp] theorem one_eq : (Scalar.one : ℚ) = 1 := Nat.cast_one

@[simp] theorem toNat_eq (x : ℚ) : Scalar.toNat x = ⌊x⌋₊ := rfl

theorem clamp_eq {lo hi : ℚ} (h : lo ≤ hi) (x : ℚ) : Scalar.clamp x lo hi = min (max x lo) hi := by
  unfold Scalar.clamp
  split
  case isTrue hlo =>
    rw [max_eq_left hlo.le]
    split
    case isTrue hhi  => exact (min_eq_left hhi.le).symm
    case isFalse hhi => exact (min_eq_right (not_lt.mp hhi)).symm
  case isFalse hlo => rw [max_eq_right (not_lt.mp hlo), min_eq_left h]

end Rational

end PdfGraphics
