import MeasurementCalculus.Amplitude
import MeasurementCalculus.Basis

/-!
# Registers

A register of `n` qubits holds one entry for every basis state. Appending a
qubit makes it the least significant digit, so a product state lists its
factors in the order of the qubits. Every operation is described by the
entries of its result, and the Pauli operations and the controlled-Z need
nothing but a negation of the entries.
-/

namespace MeasurementCalculus

/-- One entry for every basis state of `n` qubits. -/
abbrev Register (α : Type) (n : Nat) := Vector α (dimension n)

namespace Register

variable {α : Type} {n : Nat}

/-- The register that has the given entries. -/
@[inline] def ofFn (entry : Basis n → α) : Register α n :=
  Vector.ofFn entry

/-- The entry of a basis state. -/
@[inline] def entry
    (register : Register α n)
    (index : Basis n) : α :=
  register[index]

@[simp] theorem entry_ofFn
    (entries : Basis n → α)
    (index : Basis n) :
    (ofFn entries).entry index = entries index := by
  simp [ofFn, entry]

/-- Registers with the same entries are equal. -/
theorem ext_entry
    {first second : Register α n}
    (entries : ∀ index : Basis n, first.entry index = second.entry index) :
    first = second :=
  Vector.ext fun index bound => entries ⟨index, bound⟩

/-! ## Product states -/

/-- The register without qubits: a single entry equal to one. -/
@[specialize] def empty [One α] : Register α 0 :=
  ofFn fun _ => 1

@[simp] theorem entry_empty
    [One α]
    (index : Basis 0) :
    (empty : Register α 0).entry index = 1 := by
  simp [empty]

/-- A basis state without its least significant digit. -/
def shorten (index : Basis (n + 1)) : Basis n :=
  ⟨index.val / 2, by
    have bound : index.val < dimension n * 2 := index.isLt
    omega⟩

/-- Append a qubit with the given components as the least significant digit. -/
@[specialize] def tensor
    [Mul α]
    (register : Register α n)
    (factor : α × α) : Register α (n + 1) :=
  ofFn fun index =>
    register.entry (shorten index) *
      (if index.val.testBit 0 then factor.2 else factor.1)

@[simp] theorem entry_tensor
    [Mul α]
    (register : Register α n)
    (factor : α × α)
    (index : Basis (n + 1)) :
    (register.tensor factor).entry index =
      register.entry (shorten index) *
        (if index.val.testBit 0 then factor.2 else factor.1) := by
  simp [tensor]

/-- The product of single-qubit states, the first factor most significant. -/
@[specialize] def product [One α] [Mul α] : {n : Nat} → (Fin n → α × α) → Register α n
  | 0, _ => empty
  | n + 1, factors =>
      (product fun qubit => factors qubit.castSucc).tensor (factors (Fin.last n))

@[simp] theorem product_zero
    [One α]
    [Mul α]
    (factors : Fin 0 → α × α) :
    product factors = empty := rfl

@[simp] theorem product_succ
    [One α]
    [Mul α]
    (factors : Fin (n + 1) → α × α) :
    product factors =
      (product fun qubit => factors qubit.castSucc).tensor
        (factors (Fin.last n)) := rfl

/-! ## Pauli operations and the controlled-Z -/

/-- Negate every entry in which both qubits are set. -/
@[specialize] def controlledZ
    [Neg α]
    (register : Register α n)
    (first second : Fin n) : Register α n :=
  ofFn fun index =>
    if Basis.bit first index && Basis.bit second index then
      -register.entry index
    else register.entry index

@[simp] theorem entry_controlledZ
    [Neg α]
    (register : Register α n)
    (first second : Fin n)
    (index : Basis n) :
    (register.controlledZ first second).entry index =
      if Basis.bit first index && Basis.bit second index then
        -register.entry index
      else register.entry index := by
  simp [controlledZ]

/-- Exchange the entries that differ in the digit of one qubit. -/
def pauliX
    (register : Register α n)
    (qubit : Fin n) : Register α n :=
  let mask := Basis.unit qubit
  ofFn fun index => register.entry (Basis.toggle mask index)

@[simp] theorem entry_pauliX
    (register : Register α n)
    (qubit : Fin n)
    (index : Basis n) :
    (register.pauliX qubit).entry index =
      register.entry (Basis.flip qubit index) := by
  simp [pauliX, Basis.flip]

/-- Negate every entry in which the qubit is set. -/
@[specialize] def pauliZ
    [Neg α]
    (register : Register α n)
    (qubit : Fin n) : Register α n :=
  ofFn fun index =>
    if Basis.bit qubit index then -register.entry index else register.entry index

@[simp] theorem entry_pauliZ
    [Neg α]
    (register : Register α n)
    (qubit : Fin n)
    (index : Basis n) :
    (register.pauliZ qubit).entry index =
      if Basis.bit qubit index then -register.entry index
      else register.entry index := by
  simp [pauliZ]

/-! ## Norm -/

/-- The sum of the squared moduli of all amplitudes, in ascending order of the
basis states. -/
@[specialize] def normSq {R : Type} [Scalar R] (register : Register (Amplitude R) n) : R :=
  Scalar.sum (register.toList.map Amplitude.normSq)

end Register

end MeasurementCalculus
