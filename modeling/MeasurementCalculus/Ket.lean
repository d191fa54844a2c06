import MeasurementCalculus.Amplitude

/-!
# Single-qubit states

The states in which a pattern may prepare a qubit: the two basis states and the
states on the equator of the Bloch sphere, of which the ones at angle zero and
at angle pi have names of their own.
-/

namespace MeasurementCalculus

/-- The state in which a qubit is prepared. -/
inductive Ket (R : Type)
  /-- The first basis state. -/
  | zero
  /-- The second basis state. -/
  | one
  /-- The equal superposition of the basis states. -/
  | plus
  /-- The superposition with opposite signs. -/
  | minus
  /-- The superposition whose second component is turned by an angle. -/
  | equatorial (angle : R)
  deriving BEq, DecidableEq

namespace Ket

variable {R : Type} [Scalar R]

/-- The amplitudes of the two basis states, the zero component first. -/
@[inline] def amplitudes (ket : Ket R) : Amplitude R × Amplitude R :=
  let half : Amplitude R := .ofScalar Scalar.invSqrtTwo
  match ket with
  | .zero => (1, 0)
  | .one => (0, 1)
  | .plus => (half, half)
  | .minus => (half, -half)
  | .equatorial angle => (half, half * .polar 1 angle)

end Ket

end MeasurementCalculus
