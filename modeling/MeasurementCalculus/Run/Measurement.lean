import MeasurementCalculus.Run

/-!
# Measurements

A measurement command turns into a pending measurement once its signals are
read: the effective angle is fixed and the probabilities of the two outcomes are
known and checked to add up to one. Choosing an outcome collapses the register.
An outcome whose probability does not exceed the floor cannot be chosen.
-/

namespace MeasurementCalculus

/-- A measurement whose outcome has not been chosen yet. -/
structure PendingMeasurement (R : Type) (n : Nat) where
  /-- The measured qubit. -/
  qubit : Fin n
  /-- The effective angle. -/
  angle : R
  /-- The probability of outcome zero. -/
  zeroProbability : R
  /-- The probability of outcome one. -/
  oneProbability : R

namespace PendingMeasurement

variable {R : Type} {n : Nat}

/-- The probability of an outcome. -/
def probability
    (pending : PendingMeasurement R n)
    (outcome : Bool) : R :=
  if outcome then pending.oneProbability else pending.zeroProbability

/-- The sum of both probabilities. -/
def total [Add R] (pending : PendingMeasurement R n) : R :=
  pending.zeroProbability + pending.oneProbability

/-- Whether an outcome can be chosen. -/
@[specialize] def isPossible
    [Scalar R]
    (pending : PendingMeasurement R n)
    (outcome : Bool) : Bool :=
  Scalar.probabilityFloor < pending.probability outcome

end PendingMeasurement

/-- The angle of a measurement after its signals are read: the sign is turned when
`flipped`, and pi is added when `shifted`. -/
@[inline] def effectiveAngle
    {R : Type}
    [Scalar R]
    (angle : R)
    (flipped shifted : Bool) : R :=
  (if flipped then -angle else angle) + Scalar.ofBool shifted * Scalar.pi

namespace Run

variable {R : Type} [Scalar R] {n : Nat}

/-- Read the signals of the measurement at position `index` and compute the
probabilities of its outcomes. -/
@[specialize] def measurement
    (run : Run R n)
    (tolerance : R)
    (index : Nat)
    (qubit : Qubit)
    (angle : R)
    (s t : Signals) : Except (Error R) (PendingMeasurement R n) := do
  let flipped ← run.parity s
  let shifted ← run.parity t
  let measured ← locate n qubit
  let effective := effectiveAngle angle flipped shifted
  let pending : PendingMeasurement R n :=
    { qubit := measured
      angle := effective
      zeroProbability := run.register.probability measured effective false
      oneProbability := run.register.probability measured effective true }
  acceptTotal pending.total tolerance (.measurement qubit index)
  .ok pending

/-- Choose an outcome of the measurement at position `index`: the register
collapses, and the outcome is recorded. -/
@[specialize] def collapse
    (run : Run R n)
    (tolerance : R)
    (index : Nat)
    (pending : PendingMeasurement R n)
    (outcome : Bool) : Except (Error R) (Run R n) := do
  let probability := pending.probability outcome
  if probability ≤ Scalar.probabilityFloor then
    .error <| .numeric (.impossibleOutcome pending.qubit outcome index)
      probability Scalar.probabilityFloor
  else
    let register := run.register.project pending.qubit pending.angle outcome
      probability
    register.acceptNorm tolerance (.collapse pending.qubit index)
    .ok (record { run with register } pending.qubit outcome)

end Run

end MeasurementCalculus
