import Mathlib.Analysis.SpecialFunctions.Pow.Real
import PdfGraphics.Scalar.Basic
/-!
The formulas read over the real numbers.
-/

namespace PdfGraphics

noncomputable instance : Scalar ℝ where
  ofNat := Nat.cast
  toNat := Nat.floor
  decLt := inferInstance
  decLe := inferInstance

noncomputable instance : AnalyticScalar ℝ where
  sqrt := Real.sqrt
  pow x y := x ^ y
  epsilon := (1 / 2 ^ 23 : ℚ)
  isIntegral x := Int.fract x = 0

namespace Reals

@[simp] theorem zero_eq : (Scalar.zero : ℝ) = 0 := Nat.cast_zero

@[simp] theorem one_eq : (Scalar.one : ℝ) = 1 := Nat.cast_one

@[simp] theorem two_eq : (Scalar.two : ℝ) = 2 := Nat.cast_two

@[simp] theorem three_eq : (Scalar.three : ℝ) = 3 := Nat.cast_ofNat

@[simp] theorem four_eq : (Scalar.four : ℝ) = 4 := Nat.cast_ofNat

theorem epsilon_eq : (AnalyticScalar.epsilon : ℝ) = 1 / 2 ^ 23 := by
  show ((1 / 2 ^ 23 : ℚ) : ℝ) = _
  push_cast
  rfl

theorem epsilon_pos : 0 < (AnalyticScalar.epsilon : ℝ) := by
  rw [epsilon_eq]
  positivity

@[simp] theorem sqrt_eq (x : ℝ) : AnalyticScalar.sqrt x = √x := rfl

@[simp] theorem isNumber_eq (x : ℝ) : Scalar.isNumber x = true := beq_self_eq_true x

@[simp] theorem abs_eq (x : ℝ) : Scalar.abs x = |x| := by
  rw [Scalar.abs, zero_eq]
  split
  case isTrue h  => exact (abs_of_neg h).symm
  case isFalse h => exact (abs_of_nonneg (not_lt.mp h)).symm

end Reals

end PdfGraphics
