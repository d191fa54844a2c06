import MeasurementCalculus.Qubit

/-!
# Outcomes

An outcome lists the measured qubits with their recorded values in the order of
the measurements. Outcomes are ordered as lists of pairs: the first difference
decides, and an initial segment comes first.
-/

namespace MeasurementCalculus

/-- The measured qubits with their recorded values, in measurement order. -/
@[ext] structure Outcome where
  /-- The recorded pairs. -/
  bits : List (Qubit × UInt8) := []
  deriving BEq, DecidableEq

namespace Outcome

/-- The outcome of a run that measures nothing. -/
def empty : Outcome := {}

/-- The value first recorded for a qubit, if it was measured. -/
def bit?
    (outcome : Outcome)
    (qubit : Qubit) : Option UInt8 :=
  outcome.bits.lookup qubit

@[simp] theorem bit?_empty (qubit : Qubit) : empty.bit? qubit = none := rfl

/-- The values of the given qubits, if all of them were measured. -/
def values?
    (outcome : Outcome)
    (qubits : List Qubit) : Option (List UInt8) :=
  qubits.mapM outcome.bit?

section Order

attribute [local instance] lexOrd

instance : Ord Outcome := ⟨fun first second => compare first.bits second.bits⟩

theorem compare_def (first second : Outcome) :
    compare first second = compare first.bits second.bits := rfl

instance : Std.TransOrd Outcome where
  eq_swap := by
    intro first second
    rw [compare_def, compare_def]
    exact Std.OrientedOrd.eq_swap
  isLE_trans := by
    intro first second third
    rw [compare_def, compare_def, compare_def]
    exact Std.TransOrd.isLE_trans

instance : Std.LawfulEqOrd Outcome where
  compare_self := by
    intro outcome
    rw [compare_def]
    exact Std.ReflOrd.compare_self
  eq_of_compare := by
    intro first second equal
    exact Outcome.ext (Std.LawfulEqOrd.eq_of_compare equal)

end Order

end Outcome

end MeasurementCalculus
