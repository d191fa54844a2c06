import MeasurementCalculus.Proofs.Enumeration
import MeasurementCalculus.Proofs.Factor
import Mathlib.Algebra.Star.StarProjection

/-!
# A collapse is a projective measurement

A linear map of one qubit and the identity on every other one have a tensor
product, whose entries are products of entries. For the two states that a
measurement selects these products are orthogonal projectors of the whole
register, which add up to the identity and describe probabilities, collapse
and repetition of the measurement.
-/

namespace MeasurementCalculus

open Function (update)

namespace GateMatrix

theorem conjTranspose_projector (ket : Bool → ℂ) :
    (projector ket).conjTranspose = projector ket := by
  ext row column
  rw [Matrix.conjTranspose_apply, projector_apply, projector_apply, star_mul',
    ← starRingEnd_apply, ← starRingEnd_apply, Complex.conj_conj, mul_comm]

theorem projector_mul_self
    {ket : Bool → ℂ}
    (unit : IsUnitKet ket) :
    projector ket * projector ket = projector ket := by
  have square := projector_sq unit
  rwa [conjTranspose_projector] at square

end GateMatrix

/-! ## Operators of one qubit -/

section Operators

variable {n : Nat}

/-- The tensor product of a matrix on one qubit and the identity on all others. -/
def onQubit
    (qubit : Fin n)
    (matrix : GateMatrix) : Matrix (Fin n → Bool) (Fin n → Bool) ℂ :=
  Matrix.of fun row column =>
    ∏ other, (if other = qubit then matrix else 1) (row other) (column other)

theorem onQubit_update
    (qubit : Fin n)
    (matrix : GateMatrix)
    (row : Fin n → Bool)
    (digit : Bool) :
    onQubit qubit matrix row (update row qubit digit) = matrix (row qubit) digit := by
  rw [onQubit, Matrix.of_apply, Finset.prod_eq_single qubit]
  · rw [if_pos rfl, Function.update_self]
  · intro other _ different
    rw [if_neg different, Function.update_of_ne different, Matrix.one_apply_eq]
  · intro outside
    exact absurd (Finset.mem_univ qubit) outside

/-- Assignments that differ in another qubit have no entry. -/
theorem onQubit_eq_zero
    {qubit : Fin n}
    (matrix : GateMatrix)
    {row column : Fin n → Bool}
    (apart : column ∉ Set.range (update row qubit)) :
    onQubit qubit matrix row column = 0 := by
  obtain ⟨other, different, unequal⟩ :
      ∃ other, other ≠ qubit ∧ row other ≠ column other := by
    by_contra none
    push Not at none
    refine apart ⟨column qubit, funext fun other => ?_⟩
    by_cases same : other = qubit
    · rw [same, Function.update_self]
    · rw [Function.update_of_ne same, none other same]
  refine Finset.prod_eq_zero (Finset.mem_univ other) ?_
  rw [if_neg different, Matrix.one_apply_ne unequal]

/-- The tensor product acts on waves as the gate with its matrix. -/
theorem onQubit_mulVec
    (qubit : Fin n)
    (matrix : GateMatrix)
    (wave : Wave n) :
    (onQubit qubit matrix).mulVec wave = wave.gate qubit matrix := by
  funext row
  rw [Matrix.mulVec, dotProduct, Wave.gate]
  -- Only the assignments that agree with the row on all other qubits contribute.
  refine (Fintype.sum_of_injective (update row qubit)
    (Function.update_injective row qubit) _ _ (fun column apart => ?_)
    fun digit => ?_).symm
  · rw [onQubit_eq_zero matrix apart, zero_mul]
  · rw [onQubit_update]

theorem onQubit_one (qubit : Fin n) : onQubit qubit 1 = 1 := by
  refine Matrix.ext_iff_mulVec.2 fun wave => ?_
  rw [onQubit_mulVec, Wave.gate_one, Matrix.one_mulVec]

theorem onQubit_mul
    (qubit : Fin n)
    (second first : GateMatrix) :
    onQubit qubit (second * first) = onQubit qubit second * onQubit qubit first := by
  refine Matrix.ext_iff_mulVec.2 fun wave => ?_
  rw [← Matrix.mulVec_mulVec, onQubit_mulVec, onQubit_mulVec, onQubit_mulVec,
    Wave.gate_gate]

theorem onQubit_add
    (qubit : Fin n)
    (first second : GateMatrix) :
    onQubit qubit (first + second) = onQubit qubit first + onQubit qubit second := by
  refine Matrix.ext_iff_mulVec.2 fun wave => ?_
  rw [Matrix.add_mulVec, onQubit_mulVec, onQubit_mulVec, onQubit_mulVec,
    Wave.gate_add_matrix]

theorem conjTranspose_onQubit
    (qubit : Fin n)
    (matrix : GateMatrix) :
    (onQubit qubit matrix).conjTranspose = onQubit qubit matrix.conjTranspose := by
  ext row column
  rw [Matrix.conjTranspose_apply, onQubit, onQubit, Matrix.of_apply, Matrix.of_apply,
    star_prod]
  refine Finset.prod_congr rfl fun other _ => ?_
  split
  · rfl
  · rw [← Matrix.conjTranspose_apply, Matrix.conjTranspose_one]

/-- The projector of an outcome of a measurement at an angle. -/
noncomputable def outcomeProjector
    (qubit : Fin n)
    (angle : ℝ)
    (outcome : Bool) : Matrix (Fin n → Bool) (Fin n → Bool) ℂ :=
  onQubit qubit (.projector (equatorialKet angle outcome))

theorem isStarProjection_outcomeProjector
    (qubit : Fin n)
    (angle : ℝ)
    (outcome : Bool) :
    IsStarProjection (outcomeProjector qubit angle outcome) where
  isIdempotentElem := by
    rw [IsIdempotentElem, outcomeProjector, ← onQubit_mul,
      GateMatrix.projector_mul_self (isUnitKet_equatorialKet angle outcome)]
  isSelfAdjoint := by
    rw [isSelfAdjoint_iff, Matrix.star_eq_conjTranspose, outcomeProjector,
      conjTranspose_onQubit, GateMatrix.conjTranspose_projector]

theorem outcomeProjector_false_add_true
    (qubit : Fin n)
    (angle : ℝ) :
    outcomeProjector qubit angle false + outcomeProjector qubit angle true = 1 := by
  have complete := GateMatrix.projector_add_projector_neg
    (conj_mul_self_outcomePhase angle false)
  rw [outcomeProjector, outcomeProjector, ← onQubit_add, ← onQubit_one qubit]
  congr 1
  simpa [equatorialKet] using complete

end Operators

/-! ## Measurements of a run -/

/-- If both probabilities add up to one, one of them is above the floor. -/
theorem PendingMeasurement.exists_above_floor
    {n : Nat}
    {pending : PendingMeasurement ℝ n}
    (total : pending.total = 1) :
    ∃ outcome, Scalar.probabilityFloor < pending.probability outcome := by
  by_contra none
  push Not at none
  have zero : pending.zeroProbability ≤ Scalar.probabilityFloor := none false
  have one : pending.oneProbability ≤ Scalar.probabilityFloor := none true
  rw [PendingMeasurement.total] at total
  rw [Scalar.probabilityFloor_real] at zero one
  linarith

namespace Run

variable {n : Nat} {run : Run ℝ n} {qubit : Fin n} {angle tolerance : ℝ}

/-- After a collapse the same measurement yields the same outcome again. -/
theorem measurement_of_projected
    {outcome : Bool}
    (unit : run.register.wave.normSq = 1)
    (projected :
      (outcomeProjector qubit angle outcome).mulVec run.register.wave =
        run.register.wave)
    (nonneg : 0 ≤ tolerance)
    (index : Nat) :
    ∃ pending, run.measurement tolerance index qubit.val angle [] [] = .ok pending ∧
      pending.probability outcome = 1 ∧
      pending.probability (!outcome) = 0 := by
  have parity : run.parity [] = .ok false := rfl
  obtain ⟨pending, pends, _, _, total, probability⟩ :=
    measurement_eq_ok angle parity parity unit nonneg index
  have again : pending.probability outcome = 1 := by
    rw [probability, turnedAngle_false_false, ← onQubit_mulVec]
    exact (congrArg Wave.normSq projected).trans unit
  refine ⟨pending, pends, again, ?_⟩
  rw [PendingMeasurement.total] at total
  cases outcome with
  | false => exact add_eq_left.1 (total.trans again.symm)
  | true => exact add_eq_right.1 (total.trans again.symm)

/-- A collapse projects the wave onto the state of the outcome and divides it by its
norm. -/
theorem exists_collapse_eq_normalized
    {pending : PendingMeasurement ℝ n}
    {outcome : Bool}
    (probability : pending.probability outcome =
      Wave.normSq ((outcomeProjector pending.qubit pending.angle outcome).mulVec
        run.register.wave))
    (possible : Scalar.probabilityFloor < pending.probability outcome)
    (nonneg : 0 ≤ tolerance)
    (index : Nat) :
    ∃ next, run.collapse tolerance index pending outcome = .ok next ∧
      next = record { run with register := next.register } pending.qubit outcome ∧
      next.register.wave =
        Wave.normalized ((outcomeProjector pending.qubit pending.angle outcome).mulVec
          run.register.wave) ∧
      next.register.wave.normSq = 1 := by
  have positive := Scalar.probabilityFloor_pos.trans possible
  rw [probability] at positive
  have unit := Wave.normSq_normalized positive
  refine ⟨_, collapse_eq_ok possible ?_ unit nonneg index, rfl, Register.wave_ofWave _, ?_⟩
  · rw [Wave.normalized, ← probability, outcomeProjector, onQubit_mulVec]
  · rw [register_record, Register.wave_ofWave, unit]

/-- The measurement of a qubit of a normalized register at an effective
angle is the projective one. Collapsing leads to the projected wave divided
by its norm, and the same measurement yields the same outcome again. -/
theorem measurement_is_projective
    (run : Run ℝ n)
    (unit : run.register.normSq = 1)
    (qubit : Fin n)
    (angle : ℝ)
    {s t : Signals}
    {flipped shifted : Bool}
    (parityS : run.parity s = .ok flipped)
    (parityT : run.parity t = .ok shifted)
    {tolerance : ℝ}
    (nonneg : 0 ≤ tolerance)
    (index : Nat) :
    ∃ pending,
      run.measurement tolerance index qubit.val angle s t = .ok pending ∧
      pending.qubit = qubit ∧
      pending.angle = effectiveAngle angle flipped shifted ∧
      outcomeProjector qubit pending.angle false +
        outcomeProjector qubit pending.angle true = 1 ∧
      pending.total = run.register.normSq ∧
      ∀ outcome,
        IsStarProjection (outcomeProjector qubit pending.angle outcome) ∧
        pending.probability outcome =
          Wave.normSq ((outcomeProjector qubit pending.angle outcome).mulVec
            run.register.wave) ∧
        (Scalar.probabilityFloor < pending.probability outcome →
          ∃ next,
            run.collapse tolerance index pending outcome = .ok next ∧
            next = record { run with register := next.register } qubit outcome ∧
            next.register.wave =
              Wave.normalized ((outcomeProjector qubit pending.angle outcome).mulVec
                run.register.wave) ∧
            (∀ digits, next.register.wave digits =
              equatorialKet pending.angle outcome (digits qubit) *
                (run.register.wave.overlap qubit (equatorialKet pending.angle outcome)
                  digits / Real.sqrt (pending.probability outcome))) ∧
            ∀ later, ∃ again,
              next.measurement tolerance later qubit.val pending.angle [] [] =
                .ok again ∧
              again.probability outcome = 1 ∧
              again.probability (!outcome) = 0) := by
  rw [Register.normSq_eq_normSq_wave] at unit ⊢
  obtain ⟨pending, (pends : run.measurement tolerance index qubit.val angle s t = _), rfl,
    sameAngle, total, ratio⟩ := measurement_eq_ok angle parityS parityT unit nonneg index
  refine ⟨pending, pends, rfl, ?_, outcomeProjector_false_add_true _ _,
    total.trans unit.symm, fun outcome => ?_⟩
  · rw [sameAngle, effectiveAngle_real]
  have projection := isStarProjection_outcomeProjector pending.qubit pending.angle outcome
  have probability : pending.probability outcome =
      Wave.normSq ((outcomeProjector pending.qubit pending.angle outcome).mulVec
        run.register.wave) := by
    rw [ratio, outcomeProjector, onQubit_mulVec, sameAngle]
  refine ⟨projection, probability, fun possible => ?_⟩
  obtain ⟨next, collapsed, recorded, wave, unitAfter⟩ :=
    exists_collapse_eq_normalized probability possible nonneg index
  refine ⟨next, collapsed, recorded, wave, fun digits => ?_, fun later => ?_⟩
  · rw [wave, Wave.normalized, ← probability, outcomeProjector, onQubit_mulVec,
      Pi.smul_apply, smul_eq_mul, Wave.gate_projector_apply]
    push_cast
    ring
  · -- Projecting once more changes nothing.
    refine measurement_of_projected unitAfter ?_ nonneg later
    rw [wave, Wave.normalized, Matrix.mulVec_smul, Matrix.mulVec_mulVec,
      projection.isIdempotentElem.eq]

/-- Two qubits that a controlled-Z has entangled. -/
noncomputable def entangledPair : Run ℝ 2 :=
  .blank <| .ofWave <| (Wave.product fun _ => Ket.plus.state).controlledZ
    ⟨0, Nat.two_pos⟩ ⟨1, Nat.one_lt_two⟩

theorem normSq_entangledPair : entangledPair.register.normSq = 1 := by
  rw [Register.normSq_eq_normSq_wave, entangledPair, blank, Register.wave_ofWave,
    Wave.normSq_controlledZ, Wave.normSq_product fun _ => Ket.isUnitKet_state _]

theorem measurement_is_projective_entangledPair :
    ∃ pending outcome next again,
      entangledPair.measurement 0 0 0 1 [] [] = .ok pending ∧
      entangledPair.collapse 0 0 pending outcome = .ok next ∧
      next.register.wave =
        Wave.normalized ((outcomeProjector 0 pending.angle outcome).mulVec
          entangledPair.register.wave) ∧
      next.measurement 0 1 0 pending.angle [] [] = .ok again ∧
      again.probability outcome = 1 := by
  obtain ⟨pending, pends, _, _, _, total, outcomes⟩ :=
    measurement_is_projective entangledPair normSq_entangledPair 0 1
      (show entangledPair.parity [] = .ok false from rfl)
      (show entangledPair.parity [] = .ok false from rfl) le_rfl 0
  obtain ⟨outcome, possible⟩ :=
    PendingMeasurement.exists_above_floor (total.trans normSq_entangledPair)
  obtain ⟨_, _, collapse⟩ := outcomes outcome
  obtain ⟨next, collapsed, _, wave, _, repeated⟩ := collapse possible
  obtain ⟨again, measuredAgain, certain, _⟩ := repeated 1
  exact ⟨pending, outcome, next, again, pends, collapsed, wave, measuredAgain, certain⟩

end Run

end MeasurementCalculus
