import Mathlib
import SureCode.Scalar

/-!
# Real scalars

The real numbers as scalars with logarithm and exponential. Over them a sum has no rounding and a
logarithm is one, so that what is computed by logarithms can be compared with what is meant.
-/

namespace SureCode

noncomputable instance : LogScalar ℝ where
  decidableLE := inferInstance
  decidableLT := inferInstance
  neutral := 0
  isNaN _ := false
  isFinite _ := true
  totalLe a b := decide (a ≤ b)
  log := Real.log
  exp := Real.exp

namespace Scalar

@[simp] theorem zero_real : (zero : ℝ) = 0 := Nat.cast_zero

@[simp] theorem one_real : (one : ℝ) = 1 := Nat.cast_one

end Scalar

@[simp] theorem LogScalar.log_real (x : ℝ) : log x = Real.log x := rfl

@[simp] theorem LogScalar.exp_real (x : ℝ) : exp x = Real.exp x := rfl

end SureCode
