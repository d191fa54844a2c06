/-!
# Basis states

A register of `n` qubits has two to the power `n` basis states, and a basis state
is a number below that power. The first qubit is the most significant binary
digit, so that reading the digits from left to right gives the qubits in order.
-/

namespace MeasurementCalculus

/-- The number of basis states of `n` qubits. -/
abbrev dimension (n : Nat) : Nat := Nat.pow 2 n

/-- A basis state of a register of `n` qubits. -/
abbrev Basis (n : Nat) := Fin (dimension n)

namespace Basis

variable {n : Nat}

/-- The binary place of a qubit, counted from the least significant one. -/
@[inline] def place (qubit : Fin n) : Nat :=
  n - 1 - qubit

theorem place_lt (qubit : Fin n) : place qubit < n := by
  unfold place
  omega

/-- The weight of a qubit in the number of a basis state. -/
@[inline] def weight (qubit : Fin n) : Nat :=
  Nat.pow 2 (place qubit)

theorem weight_lt (qubit : Fin n) : weight qubit < dimension n :=
  Nat.pow_lt_pow_right (by decide) (place_lt qubit)

/-- The basis state in which one qubit alone is set. -/
@[inline] def unit (qubit : Fin n) : Basis n :=
  ⟨weight qubit, weight_lt qubit⟩

/-- The digit of a qubit in a basis state. -/
@[inline] def bit
    (qubit : Fin n)
    (index : Basis n) : Bool :=
  index.val.testBit (place qubit)

/-- The basis state that differs in the digits that are set in another one. -/
@[inline] def toggle (mask index : Basis n) : Basis n :=
  ⟨index.val ^^^ mask.val, Nat.xor_lt_two_pow index.isLt mask.isLt⟩

/-- The basis state that differs in the digit of one qubit. -/
@[inline] def flip
    (qubit : Fin n)
    (index : Basis n) : Basis n :=
  toggle (unit qubit) index

theorem place_inj
    {first second : Fin n}
    (same : place first = place second) : first = second := by
  unfold place at same
  omega

theorem testBit_weight
    (qubit : Fin n)
    (digit : Nat) :
    (weight qubit).testBit digit = decide (place qubit = digit) :=
  Nat.testBit_two_pow

@[simp] theorem bit_flip_self
    (qubit : Fin n)
    (index : Basis n) :
    bit qubit (flip qubit index) = !bit qubit index := by
  simp [bit, flip, toggle, unit, testBit_weight]

/-- Changing the digit of one qubit leaves the digits of the others alone. -/
theorem bit_flip_of_ne
    {first second : Fin n}
    (different : first ≠ second)
    (index : Basis n) :
    bit first (flip second index) = bit first index := by
  have places : place second ≠ place first := fun same =>
    different (place_inj same).symm
  simp [bit, flip, toggle, unit, testBit_weight, places]

@[simp] theorem flip_flip
    (qubit : Fin n)
    (index : Basis n) :
    flip qubit (flip qubit index) = index := by
  apply Fin.ext
  change (index.val ^^^ weight qubit) ^^^ weight qubit = index.val
  rw [Nat.xor_assoc, Nat.xor_self, Nat.xor_zero]

theorem flip_comm
    (first second : Fin n)
    (index : Basis n) :
    flip first (flip second index) = flip second (flip first index) := by
  apply Fin.ext
  simp [flip, toggle, unit, Nat.xor_assoc, Nat.xor_comm (weight second)]

/-- The pairs of basis states that differ in the digit of one qubit only, the
one with digit zero first, in ascending order. -/
def pairs (qubit : Fin n) : List (Basis n × Basis n) :=
  let mask := unit qubit
  ((List.finRange (dimension n)).filter fun index => !bit qubit index).map fun index =>
    (index, toggle mask index)

end Basis

end MeasurementCalculus
