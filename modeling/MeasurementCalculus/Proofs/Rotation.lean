import MeasurementCalculus.Proofs.Factor

/-!
# The rotation by measurement

The rotation J turns the phase of the second component of a qubit and applies
the Hadamard transform. A pattern performs it by entangling the qubit with a
fresh one, measuring it at the negated angle, and correcting the fresh one by
an X if the outcome is one. For both outcomes the fresh qubit then holds the
rotated state, up to one factor.
-/

namespace MeasurementCalculus

open scoped ComplexConjugate
open Function (update)

namespace GateMatrix

/-- The Hadamard transform. -/
noncomputable def hadamard : GateMatrix :=
  Matrix.of fun row column =>
    (Scalar.invSqrtTwo : ℝ) * if row && column then -1 else 1

/-- The phase of the second component is turned by an angle. -/
noncomputable def phaseShift (angle : ℝ) : GateMatrix :=
  Matrix.diagonal fun digit =>
    if digit then Complex.exp (angle * Complex.I) else 1

/-- The rotation J: a phase shift and then the Hadamard transform. -/
noncomputable def rotation (angle : ℝ) : GateMatrix :=
  hadamard * phaseShift angle

theorem rotation_apply
    (angle : ℝ)
    (row column : Bool) :
    rotation angle row column =
      ((Scalar.invSqrtTwo : ℝ) * if row && column then -1 else 1) *
        if column then Complex.exp (angle * Complex.I) else 1 :=
  Matrix.mul_diagonal _ _ _ _

theorem hadamard_unitary : hadamard.conjTranspose * hadamard = 1 := by
  ext row column
  rw [Matrix.mul_apply, Fintype.sum_bool]
  simp only [Matrix.conjTranspose_apply, hadamard, Matrix.of_apply,
    ← starRingEnd_apply, map_mul, Complex.conj_ofReal, mul_mul_mul_comm,
    invSqrtTwo_mul_self]
  cases row <;> cases column <;> norm_num

theorem phaseShift_unitary (angle : ℝ) :
    (phaseShift angle).conjTranspose * phaseShift angle = 1 := by
  have circle := conj_mul_self_outcomePhase angle false
  rw [phaseShift, Matrix.diagonal_conjTranspose, Matrix.diagonal_mul_diagonal,
    ← Matrix.diagonal_one]
  congr 1
  funext digit
  cases digit
  · simp
  · simpa using circle

theorem rotation_unitary (angle : ℝ) :
    (rotation angle).conjTranspose * rotation angle = 1 := by
  rw [rotation, Matrix.conjTranspose_mul, Matrix.mul_assoc,
    ← Matrix.mul_assoc hadamard.conjTranspose, hadamard_unitary, Matrix.one_mul,
    phaseShift_unitary]

end GateMatrix

namespace Wave

variable {n : Nat}

/-! ## Renaming wires -/

/-- Exchange two wires. -/
def rename
    (source target : Fin n)
    (wave : Wave n) : Wave n :=
  fun digits => wave fun qubit => digits (Equiv.swap source target qubit)

theorem normSq_rename
    (source target : Fin n)
    (wave : Wave n) :
    (rename source target wave).normSq = wave.normSq := by
  unfold normSq rename
  exact (Equiv.arrowCongr (Equiv.swap source target)
    (Equiv.refl Bool)).sum_comp fun digits => Complex.normSq (wave digits)

/-- Exchanging unlisted wires exchanges them in the core. -/
theorem Factors.rename
    {qubits : List Qubit}
    {kets : Qubit → Bool → ℂ}
    {core wave : Wave n}
    (factors : Factors qubits kets core wave)
    {source target : Fin n}
    (sourceApart : source.val ∉ qubits)
    (targetApart : target.val ∉ qubits) :
    Factors qubits kets (core.rename source target)
      (wave.rename source target) where
  isUnitKet := factors.isUnitKet
  dependsOn := by
    intro first second agree
    apply factors.dependsOn
    intro qubit unlisted
    apply agree
    rw [Equiv.swap_apply_def]
    split
    · exact targetApart
    · split
      · exact sourceApart
      · exact unlisted
  eq_mul := by
    funext digits
    rw [Wave.rename, factors.eq_mul, Pi.mul_apply, Pi.mul_apply]
    congr 1
    refine Finset.prod_congr rfl fun qubit _ => ?_
    split
    · next listed =>
        change kets qubit.val (digits (Equiv.swap source target qubit)) = _
        rw [Equiv.swap_apply_of_ne_of_ne]
        · rintro rfl
          exact sourceApart listed
        · rintro rfl
          exact targetApart listed
    · rfl

/-! ## The rotation and its pattern -/

/-- The core after a rotation from one wire to another: the amplitudes of the source
are rotated, and the digit of the target shows the result. -/
noncomputable def rotated
    (angle : ℝ)
    (source target : Fin n)
    (core : Wave n) : Wave n :=
  fun digits => ∑ digit,
    GateMatrix.rotation angle (digits target) digit *
      core (update digits source digit)

theorem rotated_smul
    (angle : ℝ)
    (source target : Fin n)
    (factor : ℂ)
    (core : Wave n) :
    rotated angle source target (factor • core) =
      factor • rotated angle source target core := by
  funext digits
  simp only [rotated, Pi.smul_apply, smul_eq_mul, Finset.mul_sum]
  refine Finset.sum_congr rfl fun digit _ => ?_
  ring

section Rotate

variable {fewer : List Qubit} {kets : Qubit → Bool → ℂ} {core wave : Wave n}
variable {source target : Fin n}

theorem dependsOn_rotated
    (dependsOn : DependsOn core {qubit | qubit.val ∉ fewer ++ [target.val]})
    (different : source ≠ target)
    (targetApart : target.val ∉ fewer)
    (angle : ℝ) :
    DependsOn (rotated angle source target core)
      {qubit | qubit.val ∉ fewer ++ [source.val]} := by
  intro first second agree
  have targetUnlisted : target.val ∉ fewer ++ [source.val] := by
    simp [targetApart, Fin.val_inj, different.symm]
  have same (digit : Bool) :
      core (update first source digit) = core (update second source digit) := by
    refine core_update_congr dependsOn (fun other notSource unlisted => ?_) digit
    apply agree
    rw [List.mem_append, not_or] at unlisted
    simpa [Fin.val_inj, notSource] using unlisted.1
  unfold rotated
  simp only [same, agree target targetUnlisted]

/-- In a circuit, a rotation into a wire that holds nothing. -/
theorem Factors.rotate_rename
    (factors : Factors (fewer ++ [target.val]) kets core wave)
    (blank : kets target.val = Ket.zero.state)
    (different : source ≠ target)
    (sourceApart : source.val ∉ fewer)
    (targetApart : target.val ∉ fewer)
    (angle : ℝ) :
    Factors (fewer ++ [source.val])
      (update kets source.val Ket.zero.state)
      (rotated angle source target core)
      ((wave.gate source (.rotation angle)).rename source target) := by
  refine (((factors.release targetApart).gate_of_notMem sourceApart
    (.rotation angle)).rename sourceApart targetApart).absorb sourceApart
      (Ket.isUnitKet_state _)
      (dependsOn_rotated factors.dependsOn different targetApart angle) ?_
  intro digits
  have targetDigit (digit : Bool) :
      update (fun qubit => digits (Equiv.swap source target qubit)) source digit
        target = digits source := by
    rw [Function.update_of_ne different.symm, Equiv.swap_apply_right]
  have sameCore (digit : Bool) :
      core (update (fun qubit => digits (Equiv.swap source target qubit)) source
        digit) = core (update digits source digit) := by
    refine core_update_congr factors.dependsOn (fun other notSource unlisted => ?_)
      digit
    rw [Equiv.swap_apply_of_ne_of_ne notSource]
    rintro rfl
    exact unlisted (List.mem_append_right _ (List.mem_singleton_self _))
  rw [Wave.rename, gate_apply, targetDigit, targetDigit, sameCore, sameCore,
    Equiv.swap_apply_left, blank, rotated, Fintype.sum_bool]
  ring

/-- In a pattern, the entanglement with a fresh qubit, the measurement at the negated
angle and the correction have the same effect, with one over the root of two as
factor. -/
theorem Factors.rotate_measure
    (factors : Factors (fewer ++ [target.val]) kets core wave)
    (fresh : kets target.val = Ket.plus.state)
    (different : source ≠ target)
    (sourceApart : source.val ∉ fewer)
    (targetApart : target.val ∉ fewer)
    (angle : ℝ)
    (outcome : Bool) :
    Factors (fewer ++ [source.val])
      (update kets source.val (equatorialKet (-angle) outcome))
      (((Scalar.invSqrtTwo : ℝ) : ℂ) • rotated angle source target core)
      (((wave.controlledZ source target).gate source
        (.projector (equatorialKet (-angle) outcome))).gate target
          (.onlyIf outcome .pauliX)) := by
  have targetUnlisted : target.val ∉ fewer ++ [source.val] := by
    simp [targetApart, Fin.val_inj, different.symm]
  have measured := ((factors.release targetApart).controlledZ_of_notMem
    sourceApart targetApart).project sourceApart
      (isUnitKet_equatorialKet (-angle) outcome)
  have corrected := measured.gate_of_notMem targetUnlisted
    (.onlyIf outcome .pauliX)
  refine corrected.congr_core ?_
  funext digits
  have targetDigit (digit : Bool) :
      update (update digits target (digits target ^^ outcome)) source digit target =
        (digits target ^^ outcome) := by
    rw [Function.update_of_ne different.symm, Function.update_self]
  have sameCore (digit : Bool) :
      core (update (update digits target (digits target ^^ outcome)) source
        digit) = core (update digits source digit) := by
    refine core_update_congr factors.dependsOn (fun other _ unlisted => ?_) digit
    apply Function.update_of_ne
    rintro rfl
    exact unlisted (List.mem_append_right _ (List.mem_singleton_self _))
  have conjugate : conj (Complex.exp ((-angle : ℝ) * Complex.I)) =
      Complex.exp (angle * Complex.I) := by
    rw [← Complex.exp_conj]
    simp
  rw [gate_onlyIf_pauliX_apply, overlap, controlledZ_apply, controlledZ_apply,
    Function.update_self, Function.update_self, targetDigit, targetDigit,
    sameCore, sameCore, fresh, Pi.smul_apply, rotated, Fintype.sum_bool,
    GateMatrix.rotation_apply, GateMatrix.rotation_apply]
  simp only [Ket.state, equatorialKet, phaseKet, map_mul, Complex.conj_ofReal,
    apply_ite conj, conjugate, smul_eq_mul]
  cases outcome <;> cases digits target <;> simp <;> ring

end Rotate

end Wave

end MeasurementCalculus
