import MeasurementCalculus.Proofs.Real
import MeasurementCalculus.Proofs.Wave

/-!
# Pauli matrices and equatorial states

The states on the equator of the Bloch sphere are given by the phase of their
second component, and a measurement projects onto the state at an angle or the
opposite one. A Pauli matrix in front of such a projector can be moved behind
it when the angle is changed: X turns its sign, and Z adds pi. Projectors do
not depend on a phase, so no factor appears.
-/

namespace MeasurementCalculus

open scoped ComplexConjugate
open Function (update)

namespace GateMatrix

/-- The exchange of the two components. -/
def pauliX : GateMatrix :=
  Matrix.of fun row column => if row = column then 0 else 1

/-- The sign change of the second component. -/
def pauliZ : GateMatrix :=
  Matrix.diagonal fun digit => if digit then -1 else 1

/-- A matrix that acts only if a condition fires. -/
def onlyIf
    (fires : Bool)
    (matrix : GateMatrix) : GateMatrix :=
  if fires then matrix else 1

@[simp] theorem onlyIf_false (matrix : GateMatrix) :
    onlyIf false matrix = 1 := rfl

@[simp] theorem onlyIf_true (matrix : GateMatrix) :
    onlyIf true matrix = matrix := rfl

/-- The orthogonal projector onto a state of one qubit. -/
def projector (ket : Bool → ℂ) : GateMatrix :=
  Matrix.vecMulVec ket (star ket)

@[simp] theorem pauliX_apply (row column : Bool) :
    pauliX row column = if row = column then 0 else 1 := rfl

@[simp] theorem pauliZ_apply (row column : Bool) :
    pauliZ row column = if row = column then (if row then -1 else 1) else 0 :=
  Matrix.diagonal_apply _ _ _

@[simp] theorem projector_apply
    (ket : Bool → ℂ)
    (row column : Bool) :
    projector ket row column = ket row * conj (ket column) := rfl

theorem pauliX_unitary : pauliX.conjTranspose * pauliX = 1 := by
  ext row column
  cases row <;> cases column <;>
    simp [Matrix.mul_apply]

theorem pauliZ_unitary : pauliZ.conjTranspose * pauliZ = 1 := by
  ext row column
  cases row <;> cases column <;>
    simp [Matrix.mul_apply]

theorem pauliX_mul_self : pauliX * pauliX = 1 := by
  ext row column
  cases row <;> cases column <;>
    simp [Matrix.mul_apply]

theorem pauliZ_mul_self : pauliZ * pauliZ = 1 := by
  ext row column
  cases row <;> cases column <;>
    simp [Matrix.mul_apply]

/-- A conditional involution is an involution. -/
theorem onlyIf_mul_self
    {matrix : GateMatrix}
    (involution : matrix * matrix = 1)
    (fires : Bool) :
    onlyIf fires matrix * onlyIf fires matrix = 1 := by
  cases fires with
  | false => simp
  | true => exact involution

/-- A conditional unitary matrix is unitary. -/
theorem onlyIf_unitary
    {matrix : GateMatrix}
    (unitary : matrix.conjTranspose * matrix = 1)
    (fires : Bool) :
    (onlyIf fires matrix).conjTranspose * onlyIf fires matrix = 1 := by
  cases fires with
  | false => simp
  | true => exact unitary

end GateMatrix

/-- The state on the equator whose second component has the given phase. -/
noncomputable def phaseKet (phase : ℂ) : Bool → ℂ :=
  fun digit => (Scalar.invSqrtTwo : ℝ) * if digit then phase else 1

/-- The state that an outcome of a measurement at an angle selects: the second
component is turned by the angle, and by half a circle more for outcome one. -/
noncomputable def equatorialKet
    (angle : ℝ)
    (outcome : Bool) : Bool → ℂ :=
  phaseKet ((if outcome then -1 else 1) * Complex.exp (angle * Complex.I))

theorem normSq_invSqrtTwo :
    Complex.normSq ((Scalar.invSqrtTwo : ℝ) : ℂ) = 1 / 2 := by
  rw [Scalar.invSqrtTwo_real, Complex.normSq_ofReal, div_mul_div_comm, Real.mul_self_sqrt zero_le_two,
    one_mul]

theorem invSqrtTwo_mul_self :
    ((Scalar.invSqrtTwo : ℝ) : ℂ) * ((Scalar.invSqrtTwo : ℝ) : ℂ) = 1 / 2 := by
  rw [Scalar.invSqrtTwo_real, ← Complex.ofReal_mul, div_mul_div_comm, Real.mul_self_sqrt zero_le_two]
  norm_num

namespace GateMatrix

/-- The entries of the projector onto an equatorial state. -/
theorem projector_phaseKet_apply
    (phase : ℂ)
    (row column : Bool) :
    projector (phaseKet phase) row column =
      1 / 2 * ((if row then phase else 1) * if column then conj phase else 1) := by
  rw [projector_apply, phaseKet, phaseKet, map_mul, Complex.conj_ofReal,
    ← invSqrtTwo_mul_self, apply_ite conj, map_one]
  ring

/-- X mirrors the phase of a projector that it is moved behind. -/
theorem projector_mul_pauliX
    {phase : ℂ}
    (unit : conj phase * phase = 1) :
    projector (phaseKet phase) * pauliX =
      pauliX * projector (phaseKet (conj phase)) := by
  ext row column
  simp only [Matrix.mul_apply, Fintype.sum_bool, projector_phaseKet_apply,
    pauliX_apply, Complex.conj_conj]
  cases row <;> cases column
  · simp
  · simp [unit]
  · simp [mul_comm phase, unit]
  · simp

/-- Z turns the phase of a projector around that it is moved behind. -/
theorem projector_mul_pauliZ (phase : ℂ) :
    projector (phaseKet phase) * pauliZ =
      pauliZ * projector (phaseKet (-phase)) := by
  ext row column
  simp only [Matrix.mul_apply, Fintype.sum_bool, projector_phaseKet_apply,
    pauliZ_apply, map_neg]
  cases row <;> cases column <;> simp

/-- The projector onto a unit ket is its own product with its adjoint. -/
theorem projector_sq
    {ket : Bool → ℂ}
    (unit : IsUnitKet ket) :
    (projector ket).conjTranspose * projector ket = projector ket := by
  have norm : conj (ket true) * ket true + conj (ket false) * ket false = 1 := by
    rw [← Complex.normSq_eq_conj_mul_self, ← Complex.normSq_eq_conj_mul_self,
      ← Complex.ofReal_add, add_comm, unit, Complex.ofReal_one]
  ext row column
  simp only [Matrix.mul_apply, Fintype.sum_bool, Matrix.conjTranspose_apply,
    projector_apply, ← starRingEnd_apply, map_mul, Complex.conj_conj]
  linear_combination ket row * conj (ket column) * norm

/-- The projectors onto opposite equatorial states add up to the identity. -/
theorem projector_add_projector_neg
    {phase : ℂ}
    (unit : conj phase * phase = 1) :
    projector (phaseKet phase) + projector (phaseKet (-phase)) = 1 := by
  ext row column
  simp only [Matrix.add_apply, projector_phaseKet_apply, map_neg]
  cases row <;> cases column
  · norm_num
  · simp
  · simp
  · simp only [if_true, Matrix.one_apply_eq]
    linear_combination unit

end GateMatrix

theorem isUnitKet_phaseKet
    {phase : ℂ}
    (unit : conj phase * phase = 1) :
    IsUnitKet (phaseKet phase) := by
  have norm : Complex.normSq phase = 1 := by
    apply Complex.ofReal_injective
    rw [Complex.normSq_eq_conj_mul_self, unit, Complex.ofReal_one]
  simp only [IsUnitKet, phaseKet, Complex.normSq_mul, normSq_invSqrtTwo]
  norm_num [norm]

/-! ## Angles -/

/-- The phase of an equatorial state lies on the unit circle. -/
theorem conj_mul_self_outcomePhase
    (angle : ℝ)
    (outcome : Bool) :
    conj ((if outcome then -1 else 1) * Complex.exp (angle * Complex.I)) *
      ((if outcome then -1 else 1) * Complex.exp (angle * Complex.I)) = 1 := by
  have circle : conj (Complex.exp (angle * Complex.I)) *
      Complex.exp (angle * Complex.I) = 1 := by
    rw [← Complex.normSq_eq_conj_mul_self, Complex.normSq_eq_norm_sq,
      Complex.norm_exp_ofReal_mul_I]
    norm_num
  cases outcome
  · simpa using circle
  · simpa using circle

theorem isUnitKet_equatorialKet
    (angle : ℝ)
    (outcome : Bool) :
    IsUnitKet (equatorialKet angle outcome) :=
  isUnitKet_phaseKet (conj_mul_self_outcomePhase angle outcome)

/-- The effective angle of a measurement: the sign is turned when `flipped`, and
pi is added when `shifted`. -/
noncomputable def turnedAngle
    (angle : ℝ)
    (flipped shifted : Bool) : ℝ :=
  (if flipped then -angle else angle) + if shifted then Real.pi else 0

@[simp] theorem turnedAngle_false_false (angle : ℝ) :
    turnedAngle angle false false = angle :=
  add_zero angle

/-- Turning the sign of the angle mirrors the phase. -/
theorem exp_turnedAngle_not_flipped
    (angle : ℝ)
    (flipped shifted : Bool) :
    Complex.exp (turnedAngle angle (!flipped) shifted * Complex.I) =
      conj (Complex.exp (turnedAngle angle flipped shifted * Complex.I)) := by
  rw [← Complex.exp_conj, map_mul, Complex.conj_ofReal, Complex.conj_I]
  cases shifted
  · cases flipped <;> simp [turnedAngle]
  · cases flipped <;>
      simp [turnedAngle, add_mul, Complex.exp_add, Complex.exp_neg]

/-- Adding pi to the angle turns the phase around. -/
theorem exp_turnedAngle_not_shifted
    (angle : ℝ)
    (flipped shifted : Bool) :
    Complex.exp (turnedAngle angle flipped (!shifted) * Complex.I) =
      -Complex.exp (turnedAngle angle flipped shifted * Complex.I) := by
  cases shifted <;> simp [turnedAngle, add_mul, Complex.exp_add]

/-- A conditional X in front of a measurement turns the sign of its angle and
stands behind it afterwards. -/
theorem projector_mul_onlyIf_pauliX
    (angle : ℝ)
    (flipped shifted outcome fires : Bool) :
    GateMatrix.projector
        (equatorialKet (turnedAngle angle flipped shifted) outcome) *
          GateMatrix.onlyIf fires GateMatrix.pauliX =
      GateMatrix.onlyIf fires GateMatrix.pauliX *
        GateMatrix.projector
          (equatorialKet (turnedAngle angle (fires ^^ flipped) shifted)
            outcome) := by
  cases fires with
  | false => simp
  | true =>
      rw [GateMatrix.onlyIf_true, Bool.true_xor, equatorialKet,
        GateMatrix.projector_mul_pauliX (conj_mul_self_outcomePhase _ _),
        equatorialKet, exp_turnedAngle_not_flipped, map_mul]
      cases outcome <;> simp

/-- A conditional Z in front of a measurement adds pi to its angle and stands
behind it afterwards. -/
theorem projector_mul_onlyIf_pauliZ
    (angle : ℝ)
    (flipped shifted outcome fires : Bool) :
    GateMatrix.projector
        (equatorialKet (turnedAngle angle flipped shifted) outcome) *
          GateMatrix.onlyIf fires GateMatrix.pauliZ =
      GateMatrix.onlyIf fires GateMatrix.pauliZ *
        GateMatrix.projector
          (equatorialKet (turnedAngle angle flipped (fires ^^ shifted))
            outcome) := by
  cases fires with
  | false => simp
  | true =>
      rw [GateMatrix.onlyIf_true, Bool.true_xor, equatorialKet,
        GateMatrix.projector_mul_pauliZ, equatorialKet,
        exp_turnedAngle_not_shifted, mul_neg]

namespace Wave

variable {n : Nat}

theorem gate_onlyIf_pauliX_apply
    (qubit : Fin n)
    (fires : Bool)
    (wave : Wave n)
    (digits : Fin n → Bool) :
    gate qubit (.onlyIf fires .pauliX) wave digits =
      wave (update digits qubit (digits qubit ^^ fires)) := by
  cases fires with
  | false => simp
  | true =>
      rw [gate_apply]
      cases digit : digits qubit <;> simp

theorem gate_onlyIf_pauliZ_apply
    (qubit : Fin n)
    (fires : Bool)
    (wave : Wave n)
    (digits : Fin n → Bool) :
    gate qubit (.onlyIf fires .pauliZ) wave digits =
      if fires && digits qubit then -wave digits else wave digits := by
  have unchanged := Function.update_eq_self qubit digits
  cases fires with
  | false => simp
  | true =>
      rw [gate_apply]
      cases digit : digits qubit with
      | false =>
          rw [digit] at unchanged
          simp [unchanged]
      | true =>
          rw [digit] at unchanged
          simp [unchanged]

/-- A controlled-Z that passes an X on its first qubit leaves a Z on its second
qubit behind. -/
theorem controlledZ_pauliX
    {first second : Fin n}
    (different : first ≠ second)
    (fires : Bool)
    (wave : Wave n) :
    controlledZ first second (gate first (.onlyIf fires .pauliX) wave) =
      gate second (.onlyIf fires .pauliZ)
        (gate first (.onlyIf fires .pauliX)
          (controlledZ first second wave)) := by
  funext digits
  rw [gate_onlyIf_pauliZ_apply, gate_onlyIf_pauliX_apply, controlledZ_apply,
    controlledZ_apply, gate_onlyIf_pauliX_apply, Function.update_self,
    Function.update_of_ne different.symm]
  cases fires <;> cases digits first <;> cases digits second <;> simp

/-- A controlled-Z commutes with every Z. -/
theorem controlledZ_pauliZ
    (first second qubit : Fin n)
    (fires : Bool)
    (wave : Wave n) :
    controlledZ first second (gate qubit (.onlyIf fires .pauliZ) wave) =
      gate qubit (.onlyIf fires .pauliZ) (controlledZ first second wave) := by
  funext digits
  simp only [gate_onlyIf_pauliZ_apply, controlledZ_apply]
  split
  · split
    · rfl
    · rfl
  · rfl

/-- The two outcomes of a measurement share out the squared norm. -/
theorem normSq_project_false_add_true
    (qubit : Fin n)
    (angle : ℝ)
    (wave : Wave n) :
    (gate qubit (GateMatrix.projector (equatorialKet angle false)) wave).normSq +
        (gate qubit (GateMatrix.projector (equatorialKet angle true))
          wave).normSq =
      wave.normSq := by
  apply normSq_gate_add_normSq_gate
  rw [GateMatrix.projector_sq (isUnitKet_equatorialKet angle false),
    GateMatrix.projector_sq (isUnitKet_equatorialKet angle true)]
  have complete := GateMatrix.projector_add_projector_neg
    (conj_mul_self_outcomePhase angle false)
  simpa [equatorialKet] using complete

end Wave

end MeasurementCalculus
