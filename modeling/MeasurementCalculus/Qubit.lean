import Std.Data.TreeSet.Lemmas

/-!
# Qubits

A pattern names its qubits by natural numbers. A pattern that passes the
well-formedness check prepares exactly the qubits below some number `n`, so
the same number is also a position in a register of `n` qubits. Sets of qubits
that are reported to a reader are ascending lists without repetition.
-/

namespace MeasurementCalculus

/-- The number that names a qubit inside one pattern. -/
abbrev Qubit := Nat

/-- A finite set of qubits, kept in a search tree for membership tests. -/
abbrev QubitSet := Std.TreeSet Qubit

namespace Qubit

/-- The written name of a qubit: the letter `q` followed by its number. -/
def label (qubit : Qubit) : String :=
  "q" ++ Nat.repr qubit

/-- The distinct members of a list of qubits, in ascending order. -/
def ascending (qubits : List Qubit) : List Qubit :=
  (Std.TreeSet.ofList qubits).toList

@[simp] theorem mem_ascending
    {qubit : Qubit}
    {qubits : List Qubit} :
    qubit ∈ ascending qubits ↔ qubit ∈ qubits := by
  simp [ascending]

/-- The ascending list is strictly ascending. -/
theorem pairwise_ascending (qubits : List Qubit) :
    (ascending qubits).Pairwise (· < ·) := by
  have ordered := (Std.TreeSet.ofList qubits).ordered_toList
  exact ordered.imp fun less => Nat.compare_eq_lt.1 less

end Qubit

end MeasurementCalculus
