import MeasurementCalculus.Error
import MeasurementCalculus.Register

/-!
# Normalization

Probabilities must add up to one, within a tolerance. A total that is
infinite or undefined is never accepted, whatever the tolerance is, and a
total that is refused is reported together with the place in the execution
where it arose.
-/

namespace MeasurementCalculus

variable {R : Type} [Scalar R]

/-- Accept a total probability that deviates from one by at most the tolerance. -/
@[specialize] def acceptTotal
    (total tolerance : R)
    (context : NumericContext) : Except (Error R) Unit :=
  if tolerance < Scalar.abs (total - 1) ∨ Scalar.isFinite total = false then
    .error (.numeric context total tolerance)
  else .ok ()

/-- Accept a register whose squared norm deviates from one by at most the
tolerance. -/
@[specialize] def Register.acceptNorm
    {n : Nat}
    (register : Register (Amplitude R) n)
    (tolerance : R)
    (context : NumericContext) : Except (Error R) Unit :=
  acceptTotal register.normSq tolerance context

end MeasurementCalculus
