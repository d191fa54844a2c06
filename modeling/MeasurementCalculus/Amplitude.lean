import MeasurementCalculus.Scalar

/-!
# Amplitudes

An amplitude is a complex number over the scalars, given by its real and
imaginary part. The order of the operations inside each definition is fixed,
because rounding makes it observable on machine numbers.
-/

namespace MeasurementCalculus

/-- A complex number with real part `re` and imaginary part `im`. -/
@[ext] structure Amplitude (R : Type) where
  /-- The real part. -/
  re : R
  /-- The imaginary part. -/
  im : R
  deriving BEq, DecidableEq

namespace Amplitude

variable {R : Type} [Scalar R]

/-- A scalar as an amplitude without imaginary part. -/
@[inline] def ofScalar (value : R) : Amplitude R :=
  ⟨value, 0⟩

instance : Zero (Amplitude R) := ⟨ofScalar 0⟩

instance : One (Amplitude R) := ⟨ofScalar 1⟩

instance : Neg (Amplitude R) := ⟨fun a => ⟨-a.re, -a.im⟩⟩

instance : Add (Amplitude R) := ⟨fun a b => ⟨a.re + b.re, a.im + b.im⟩⟩

instance : Mul (Amplitude R) :=
  ⟨fun a b => ⟨a.re * b.re - a.im * b.im, a.re * b.im + a.im * b.re⟩⟩

/-- Multiply both parts by a scalar. -/
@[inline] def scale (a : Amplitude R) (factor : R) : Amplitude R :=
  ⟨a.re * factor, a.im * factor⟩

/-- The squared modulus. -/
@[inline] def normSq (a : Amplitude R) : R :=
  a.re * a.re + a.im * a.im

/-- The amplitude of the given modulus and argument. -/
@[inline] def polar (modulus angle : R) : Amplitude R :=
  ⟨modulus * Scalar.cos angle, modulus * Scalar.sin angle⟩

@[simp] theorem zero_re : (0 : Amplitude R).re = 0 := rfl

@[simp] theorem zero_im : (0 : Amplitude R).im = 0 := rfl

@[simp] theorem one_re : (1 : Amplitude R).re = 1 := rfl

@[simp] theorem one_im : (1 : Amplitude R).im = 0 := rfl

@[simp] theorem neg_re (a : Amplitude R) : (-a).re = -a.re := rfl

@[simp] theorem neg_im (a : Amplitude R) : (-a).im = -a.im := rfl

@[simp] theorem add_re (a b : Amplitude R) : (a + b).re = a.re + b.re := rfl

@[simp] theorem add_im (a b : Amplitude R) : (a + b).im = a.im + b.im := rfl

@[simp] theorem mul_re (a b : Amplitude R) :
    (a * b).re = a.re * b.re - a.im * b.im := rfl

@[simp] theorem mul_im (a b : Amplitude R) :
    (a * b).im = a.re * b.im + a.im * b.re := rfl

@[simp] theorem scale_re (a : Amplitude R) (factor : R) :
    (a.scale factor).re = a.re * factor := rfl

@[simp] theorem scale_im (a : Amplitude R) (factor : R) :
    (a.scale factor).im = a.im * factor := rfl

end Amplitude

end MeasurementCalculus
