import MeasurementCalculus.Scalar

/-!
# Machine numbers as scalars

Programs are executed on binary floating-point numbers of double
precision. The thresholds are the doubles nearest to their decimal
values, and comparisons with an undefined number fail in either
direction.
-/

namespace MeasurementCalculus

instance : Scalar Float where
  zero := 0.0
  one := 1.0
  natCast := Float.ofNat
  decidableLT := fun first second => inferInstanceAs (Decidable (first < second))
  decidableLE := fun first second => inferInstanceAs (Decidable (first ≤ second))
  sqrt := Float.sqrt
  cos := Float.cos
  sin := Float.sin
  abs := Float.abs
  pi := 3.141592653589793
  invSqrtTwo := 0.7071067811865476
  probabilityFloor := 1e-14
  defaultTolerance := 1e-9
  isFinite := Float.isFinite

end MeasurementCalculus
