import MeasurementCalculus.Register

/-!
# Projection onto an equatorial state

A measurement at an angle projects one qubit onto one of the two states on the
equator of the Bloch sphere at that angle. Every pair of basis states that
differ in the measured qubit contributes one overlap. The squared moduli of
the overlaps add up to the probability of the outcome, and rescaled they are
the amplitudes of the other qubits.
-/

namespace MeasurementCalculus

namespace Register

variable {R : Type} [Scalar R] {n : Nat}

/-- The factor of the second component in an overlap with the state at an
angle. -/
@[inline] def overlapPhase
    (angle : R)
    (outcome : Bool) : Amplitude R :=
  .polar (Scalar.sign outcome) (-angle)

/-- The overlap of one qubit with the state whose phase factor is given, at two
basis states that differ in its digit, the one with digit zero first. -/
@[inline] def overlap
    (register : Register (Amplitude R) n)
    (phase : Amplitude R)
    (low high : Basis n) : Amplitude R :=
  (register.entry low + phase * register.entry high).scale Scalar.invSqrtTwo

/-- The probability of an outcome of a measurement at an angle. -/
@[specialize] def probability
    (register : Register (Amplitude R) n)
    (qubit : Fin n)
    (angle : R)
    (outcome : Bool) : R :=
  let phase := overlapPhase angle outcome
  Scalar.sum <| (Basis.pairs qubit).map fun (low, high) =>
    (register.overlap phase low high).normSq

/-- The two components of the state at an angle that an outcome selects. -/
@[inline] def outcomeKet
    (angle : R)
    (outcome : Bool) : Amplitude R × Amplitude R :=
  (.ofScalar Scalar.invSqrtTwo,
    .polar (Scalar.sign outcome * Scalar.invSqrtTwo) angle)

/-- The state after an outcome of the given probability. -/
@[specialize] def project
    (register : Register (Amplitude R) n)
    (qubit : Fin n)
    (angle : R)
    (outcome : Bool)
    (probability : R) : Register (Amplitude R) n :=
  let phase := overlapPhase angle outcome
  let ket := outcomeKet angle outcome
  let factor := 1 / Scalar.sqrt probability
  let mask := Basis.unit qubit
  ofFn fun index =>
    let partner := Basis.toggle mask index
    if Basis.bit qubit index then
      (register.overlap phase partner index).scale factor * ket.2
    else (register.overlap phase index partner).scale factor * ket.1

@[simp] theorem entry_project
    (register : Register (Amplitude R) n)
    (qubit : Fin n)
    (angle : R)
    (outcome : Bool)
    (probability : R)
    (index : Basis n) :
    (register.project qubit angle outcome probability).entry index =
      if Basis.bit qubit index then
        (register.overlap (overlapPhase angle outcome)
          (Basis.flip qubit index) index).scale (1 / Scalar.sqrt probability) *
          (outcomeKet angle outcome).2
      else
        (register.overlap (overlapPhase angle outcome)
          index (Basis.flip qubit index)).scale (1 / Scalar.sqrt probability) *
          (outcomeKet angle outcome).1 := by
  simp [project, Basis.flip]

end Register

end MeasurementCalculus
