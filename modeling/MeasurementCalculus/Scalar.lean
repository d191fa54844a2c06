/-!
# Scalars

A simulation computes with the operations of an ordered field, square roots
and the trigonometric functions, and compares with a few fixed thresholds. The
class below collects them, so that one definition of a run serves machine
numbers and the real numbers alike. No law is part of the class: a statement
about every scalar type also holds of rounding numbers.
-/

namespace MeasurementCalculus

/-- The arithmetic on which a simulation runs. -/
class Scalar (R : Type) extends
    Zero R, One R, Neg R, Add R, Sub R, Mul R, Div R, LT R, LE R, NatCast R where
  /-- The strict order can be tested. -/
  [decidableLT : DecidableLT R]
  /-- The weak order can be tested. -/
  [decidableLE : DecidableLE R]
  /-- The square root. -/
  sqrt : R → R
  /-- The cosine of an angle in radians. -/
  cos : R → R
  /-- The sine of an angle in radians. -/
  sin : R → R
  /-- The absolute value. -/
  abs : R → R
  /-- Half the circumference of the unit circle. -/
  pi : R
  /-- One over the square root of two. -/
  invSqrtTwo : R
  /-- Outcomes whose probability is at most this are taken to be impossible. -/
  probabilityFloor : R
  /-- The deviation of a total probability from one that is accepted unless
  another tolerance is asked for. -/
  defaultTolerance : R
  /-- Whether a value is an ordinary number. -/
  isFinite : R → Bool

namespace Scalar

variable {R : Type} [Scalar R]

instance (priority := low) : DecidableLT R := Scalar.decidableLT

instance (priority := low) : DecidableLE R := Scalar.decidableLE

/-- The sum of a list of scalars, added from left to right. -/
@[specialize] def sum (terms : List R) : R :=
  terms.foldl (· + ·) 0

/-- The larger of two scalars; the first one unless the second is certainly
larger. -/
@[inline] def max (first second : R) : R :=
  if first < second then second else first

/-- A sign as a scalar: minus one when `negative` holds. -/
@[inline] def sign (negative : Bool) : R :=
  if negative then -1 else 1

/-- A truth value as a scalar. -/
@[inline] def ofBool (value : Bool) : R :=
  if value then 1 else 0

end Scalar

end MeasurementCalculus
