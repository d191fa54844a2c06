import MeasurementCalculus.Normalization
import Mathlib.Analysis.SpecialFunctions.Complex.Circle

/-!
# Exact arithmetic

Over the real numbers the arithmetic of a simulation is exact: angles, square
roots and sums are those of analysis, and every value is an ordinary number. An
amplitude is then a complex number, and its operations are the complex ones.
-/

namespace MeasurementCalculus

/-- A shortcut, so that the division of reals is that of the field and is not found
by way of the scalars. -/
noncomputable instance instDivReal : Div ℝ := DivInvMonoid.toDiv

noncomputable instance : Scalar ℝ where
  toZero := inferInstance
  toOne := inferInstance
  toNeg := inferInstance
  toAdd := inferInstance
  toSub := inferInstance
  toMul := inferInstance
  toDiv := inferInstance
  toLT := inferInstance
  toLE := inferInstance
  toNatCast := inferInstance
  decidableLT := inferInstance
  decidableLE := inferInstance
  sqrt := Real.sqrt
  cos := Real.cos
  sin := Real.sin
  abs := fun value => |value|
  pi := Real.pi
  invSqrtTwo := 1 / Real.sqrt 2
  probabilityFloor := 1 / 10 ^ 14
  defaultTolerance := 1 / 10 ^ 9
  isFinite := fun _ => true

namespace Scalar

@[simp] theorem sqrt_real (value : ℝ) : Scalar.sqrt value = Real.sqrt value := rfl

@[simp] theorem cos_real (angle : ℝ) : Scalar.cos angle = Real.cos angle := rfl

@[simp] theorem sin_real (angle : ℝ) : Scalar.sin angle = Real.sin angle := rfl

@[simp] theorem abs_real (value : ℝ) : Scalar.abs value = |value| := rfl

@[simp] theorem pi_real : (Scalar.pi : ℝ) = Real.pi := rfl

theorem invSqrtTwo_real : (Scalar.invSqrtTwo : ℝ) = 1 / Real.sqrt 2 := rfl

@[simp] theorem isFinite_real (value : ℝ) : Scalar.isFinite value = true := rfl

theorem probabilityFloor_real :
    (Scalar.probabilityFloor : ℝ) = 1 / 10 ^ 14 := rfl

theorem probabilityFloor_pos : 0 < (Scalar.probabilityFloor : ℝ) := by
  rw [probabilityFloor_real]
  positivity

theorem one_sub_probabilityFloor_pos : 0 < 1 - (Scalar.probabilityFloor : ℝ) := by
  rw [probabilityFloor_real]
  norm_num

/-- Sums of exact numbers do not depend on the order. -/
@[simp] theorem sum_real (terms : List ℝ) : Scalar.sum terms = terms.sum := by
  rw [List.sum_eq_foldl]
  rfl

/-- The larger of two exact numbers is their maximum. -/
theorem max_real (first second : ℝ) : Scalar.max first second = Max.max first second :=
  (max_def_lt first second).symm

end Scalar

/-- A total is accepted exactly if it lies within the tolerance. -/
theorem acceptTotal_real
    (total tolerance : ℝ)
    (context : NumericContext) :
    acceptTotal total tolerance context =
      if |total - 1| ≤ tolerance then .ok ()
      else .error (.numeric context total tolerance) := by
  unfold acceptTotal
  by_cases within : |total - 1| ≤ tolerance
  · simp [within, not_lt.2 within]
  · simp [within, not_le.1 within]

namespace Amplitude

/-- The complex number with the parts of an amplitude. -/
def toComplex (a : Amplitude ℝ) : ℂ :=
  ⟨a.re, a.im⟩

/-- The amplitude with the parts of a complex number. -/
def ofComplex (value : ℂ) : Amplitude ℝ :=
  ⟨value.re, value.im⟩

@[simp] theorem toComplex_ofComplex (value : ℂ) :
    (ofComplex value).toComplex = value := rfl

@[simp] theorem ofComplex_toComplex (a : Amplitude ℝ) :
    ofComplex a.toComplex = a := rfl

@[simp] theorem toComplex_zero : (0 : Amplitude ℝ).toComplex = 0 := rfl

@[simp] theorem toComplex_one : (1 : Amplitude ℝ).toComplex = 1 := rfl

@[simp] theorem toComplex_ofScalar (value : ℝ) :
    (ofScalar value).toComplex = value := rfl

@[simp] theorem toComplex_neg (a : Amplitude ℝ) :
    (-a).toComplex = -a.toComplex := rfl

@[simp] theorem toComplex_add (a b : Amplitude ℝ) :
    (a + b).toComplex = a.toComplex + b.toComplex := rfl

@[simp] theorem toComplex_mul (a b : Amplitude ℝ) :
    (a * b).toComplex = a.toComplex * b.toComplex := by
  apply Complex.ext
  · simp [toComplex]
  · simp [toComplex]

@[simp] theorem toComplex_scale
    (a : Amplitude ℝ)
    (factor : ℝ) :
    (a.scale factor).toComplex = a.toComplex * factor := by
  apply Complex.ext
  · simp [toComplex]
  · simp [toComplex]

@[simp] theorem toComplex_polar (modulus angle : ℝ) :
    (polar modulus angle).toComplex =
      modulus * Complex.exp (angle * Complex.I) := by
  apply Complex.ext
  · simp [toComplex, polar, Complex.exp_ofReal_mul_I_re]
  · simp [toComplex, polar, Complex.exp_ofReal_mul_I_im]

theorem normSq_eq_normSq_toComplex (a : Amplitude ℝ) :
    a.normSq = Complex.normSq a.toComplex := rfl

end Amplitude

end MeasurementCalculus
