import Mathlib.Data.Complex.BigOperators
import Mathlib.Data.Fintype.BigOperators
import Mathlib.LinearAlgebra.Matrix.ConjTranspose
import Mathlib.Logic.Function.DependsOn

/-!
# Waves

A wave gives a complex amplitude to every assignment of binary digits to `n`
qubits. It is the mathematical reading of a register: without a numbering of
the basis states, without rounding and without normalization. Everything that
happens to a single qubit is a gate, given by a matrix, and the controlled-Z
is the only operation that joins two qubits.
-/

namespace MeasurementCalculus

open scoped ComplexConjugate
open Function (update)

/-- A complex amplitude for every assignment of digits to `n` qubits. -/
abbrev Wave (n : Nat) := (Fin n → Bool) → ℂ

/-- A linear map of the two amplitudes of a single qubit. -/
abbrev GateMatrix := Matrix Bool Bool ℂ

/-- A state of one qubit of norm one. -/
def IsUnitKet (ket : Bool → ℂ) : Prop :=
  Complex.normSq (ket false) + Complex.normSq (ket true) = 1

namespace Wave

variable {n : Nat}

/-! ## Gates -/

/-- Apply a matrix to the amplitudes of one qubit. -/
def gate
    (qubit : Fin n)
    (matrix : GateMatrix)
    (wave : Wave n) : Wave n :=
  fun digits =>
    ∑ digit, matrix (digits qubit) digit * wave (update digits qubit digit)

/-- Negate the amplitudes of the assignments in which both qubits are set. -/
def controlledZ
    (first second : Fin n)
    (wave : Wave n) : Wave n :=
  fun digits =>
    if digits first && digits second then -wave digits else wave digits

theorem gate_apply
    (qubit : Fin n)
    (matrix : GateMatrix)
    (wave : Wave n)
    (digits : Fin n → Bool) :
    gate qubit matrix wave digits =
      matrix (digits qubit) true * wave (update digits qubit true) +
        matrix (digits qubit) false * wave (update digits qubit false) := by
  rw [gate, Fintype.sum_bool]

theorem controlledZ_apply
    (first second : Fin n)
    (wave : Wave n)
    (digits : Fin n → Bool) :
    controlledZ first second wave digits =
      if digits first && digits second then -wave digits else wave digits := rfl

@[simp] theorem gate_one
    (qubit : Fin n)
    (wave : Wave n) :
    gate qubit 1 wave = wave := by
  funext digits
  rw [gate, Finset.sum_eq_single (digits qubit)]
  · simp
  · intro digit _ different
    rw [Matrix.one_apply_ne' different, zero_mul]
  · simp

/-- Gates on one qubit compose like their matrices. -/
theorem gate_gate
    (qubit : Fin n)
    (second first : GateMatrix)
    (wave : Wave n) :
    gate qubit second (gate qubit first wave) =
      gate qubit (second * first) wave := by
  funext digits
  simp only [gate_apply, Function.update_self, Function.update_idem,
    Matrix.mul_apply, Fintype.sum_bool]
  ring

/-- Gates on different qubits commute. -/
theorem gate_comm
    {first second : Fin n}
    (different : first ≠ second)
    (firstMatrix secondMatrix : GateMatrix)
    (wave : Wave n) :
    gate first firstMatrix (gate second secondMatrix wave) =
      gate second secondMatrix (gate first firstMatrix wave) := by
  funext digits
  simp only [gate_apply, Function.update_of_ne different,
    Function.update_of_ne different.symm, Function.update_comm different]
  ring

theorem gate_smul
    (qubit : Fin n)
    (matrix : GateMatrix)
    (factor : ℂ)
    (wave : Wave n) :
    gate qubit matrix (factor • wave) = factor • gate qubit matrix wave := by
  funext digits
  simp only [gate_apply, Pi.smul_apply, smul_eq_mul]
  ring

/-- Gates are additive in their matrices. -/
theorem gate_add_matrix
    (qubit : Fin n)
    (first second : GateMatrix)
    (wave : Wave n) :
    gate qubit (first + second) wave =
      gate qubit first wave + gate qubit second wave := by
  funext digits
  simp only [gate_apply, Pi.add_apply, Matrix.add_apply]
  ring

/-- A controlled-Z commutes with the gates of other qubits. -/
theorem controlledZ_gate
    {first second qubit : Fin n}
    (firstDifferent : qubit ≠ first)
    (secondDifferent : qubit ≠ second)
    (matrix : GateMatrix)
    (wave : Wave n) :
    controlledZ first second (gate qubit matrix wave) =
      gate qubit matrix (controlledZ first second wave) := by
  funext digits
  simp only [gate_apply, controlledZ_apply,
    Function.update_of_ne firstDifferent.symm,
    Function.update_of_ne secondDifferent.symm]
  split
  · ring
  · rfl

theorem controlledZ_smul
    (first second : Fin n)
    (factor : ℂ)
    (wave : Wave n) :
    controlledZ first second (factor • wave) =
      factor • controlledZ first second wave := by
  funext digits
  simp only [controlledZ_apply, Pi.smul_apply, smul_eq_mul]
  split
  · ring
  · rfl

theorem controlledZ_comm
    (first second third fourth : Fin n)
    (wave : Wave n) :
    controlledZ first second (controlledZ third fourth wave) =
      controlledZ third fourth (controlledZ first second wave) := by
  funext digits
  simp only [controlledZ_apply]
  split
  · split
    · rfl
    · rfl
  · rfl

/-! ## Inner product and norm -/

/-- The inner product of two waves, antilinear in the first. -/
def inner (first second : Wave n) : ℂ :=
  ∑ digits, conj (first digits) * second digits

/-- The sum of the squared moduli of all amplitudes. -/
def normSq (wave : Wave n) : ℝ :=
  ∑ digits, Complex.normSq (wave digits)

theorem inner_self (wave : Wave n) : inner wave wave = wave.normSq := by
  unfold inner normSq
  rw [Complex.ofReal_sum]
  exact Finset.sum_congr rfl fun digits _ =>
    (Complex.normSq_eq_conj_mul_self).symm

theorem inner_add
    (first second third : Wave n) :
    inner first (second + third) = inner first second + inner first third := by
  unfold inner
  rw [← Finset.sum_add_distrib]
  exact Finset.sum_congr rfl fun digits _ => mul_add _ _ _

theorem normSq_nonneg (wave : Wave n) : 0 ≤ wave.normSq :=
  Finset.sum_nonneg fun _ _ => Complex.normSq_nonneg _

theorem normSq_smul
    (factor : ℂ)
    (wave : Wave n) :
    normSq (factor • wave) = Complex.normSq factor * wave.normSq := by
  unfold normSq
  rw [Finset.mul_sum]
  exact Finset.sum_congr rfl fun digits _ => Complex.normSq_mul _ _

theorem normSq_controlledZ
    (first second : Fin n)
    (wave : Wave n) :
    (controlledZ first second wave).normSq = wave.normSq := by
  refine Finset.sum_congr rfl fun digits _ => ?_
  rw [controlledZ_apply]
  split
  · exact Complex.normSq_neg _
  · rfl

/-- The exchange of a digit of an assignment with a loose digit. -/
def exchange (qubit : Fin n) :
    (Fin n → Bool) × Bool ≃ (Fin n → Bool) × Bool where
  toFun pair := (update pair.1 qubit pair.2, pair.1 qubit)
  invFun pair := (update pair.1 qubit pair.2, pair.1 qubit)
  left_inv pair := by simp
  right_inv pair := by simp

/-- The adjoint of a gate is the gate of the adjoint matrix. -/
theorem inner_gate
    (qubit : Fin n)
    (matrix : GateMatrix)
    (first second : Wave n) :
    inner (gate qubit matrix first) second =
      inner first (gate qubit matrix.conjTranspose second) := by
  unfold inner gate
  simp only [map_sum, map_mul, Finset.sum_mul, Finset.mul_sum]
  rw [← Fintype.sum_prod_type', ← Fintype.sum_prod_type',
    ← (exchange qubit).sum_comp]
  refine Finset.sum_congr rfl fun pair _ => ?_
  simp only [exchange, Equiv.coe_fn_mk, Function.update_self,
    Function.update_idem, Function.update_eq_self, Matrix.conjTranspose_apply,
    starRingEnd_apply]
  ring

/-- The squared norm after a gate depends on the matrix only through its product
with its adjoint. -/
theorem normSq_gate
    (qubit : Fin n)
    (matrix : GateMatrix)
    (wave : Wave n) :
    ((gate qubit matrix wave).normSq : ℂ) =
      inner wave (gate qubit (matrix.conjTranspose * matrix) wave) := by
  rw [← inner_self, inner_gate, gate_gate]

/-- Unitary gates keep the norm. -/
theorem normSq_gate_of_unitary
    (qubit : Fin n)
    {matrix : GateMatrix}
    (unitary : matrix.conjTranspose * matrix = 1)
    (wave : Wave n) :
    (gate qubit matrix wave).normSq = wave.normSq := by
  apply Complex.ofReal_injective
  rw [normSq_gate, unitary, gate_one, inner_self]

/-- If the products of two matrices with their adjoints add up to the identity,
their gates share out the squared norm. -/
theorem normSq_gate_add_normSq_gate
    (qubit : Fin n)
    {first second : GateMatrix}
    (complete : first.conjTranspose * first +
      second.conjTranspose * second = 1)
    (wave : Wave n) :
    (gate qubit first wave).normSq + (gate qubit second wave).normSq =
      wave.normSq := by
  apply Complex.ofReal_injective
  rw [Complex.ofReal_add, normSq_gate, normSq_gate, ← inner_add,
    ← gate_add_matrix, complete, gate_one, inner_self]

/-! ## Product states -/

/-- The wave in which every qubit is in a state of its own. -/
def product (kets : Fin n → Bool → ℂ) : Wave n :=
  fun digits => ∏ qubit, kets qubit (digits qubit)

/-- The squared norm of a product is the product of those of its factors. -/
theorem normSq_product_eq_prod (kets : Fin n → Bool → ℂ) :
    (product kets).normSq =
      ∏ qubit, (Complex.normSq (kets qubit false) + Complex.normSq (kets qubit true)) := by
  have exchanged := Finset.prod_univ_sum (fun _ : Fin n => Finset.univ)
    fun qubit digit => Complex.normSq (kets qubit digit)
  rw [Fintype.piFinset_univ] at exchanged
  unfold normSq product
  simp only [map_prod]
  rw [← exchanged]
  refine Finset.prod_congr rfl fun qubit _ => ?_
  rw [Fintype.sum_bool, add_comm]

/-- A product of unit kets has norm one. -/
theorem normSq_product
    {kets : Fin n → Bool → ℂ}
    (unit : ∀ qubit, IsUnitKet (kets qubit)) :
    (product kets).normSq = 1 := by
  rw [normSq_product_eq_prod]
  exact Finset.prod_eq_one fun qubit _ => unit qubit

end Wave

end MeasurementCalculus
