import MeasurementCalculus.Command

/-!
# Violations

A violation says which well-formedness condition a pattern breaks, where, and
for which qubits. Conditions on single commands carry the position and a copy of
the command; conditions on the pattern as a whole carry no place.
-/

namespace MeasurementCalculus

/-- The well-formedness conditions of the calculus. -/
inductive Condition
  /-- D0: a signal is read only after its qubit has been measured. -/
  | measuredSignal
  /-- D1: no command acts on a qubit that has been measured. -/
  | unmeasuredTarget
  /-- D2: every command acts on prepared qubits. -/
  | preparedTarget
  /-- D4: the prepared qubits are numbered from zero without a gap. -/
  | contiguous
  /-- Every qubit is declared by one preparation only. -/
  | singlePreparation
  /-- The two qubits of an entanglement are different. -/
  | distinctPair
  deriving BEq, DecidableEq

/-- One breach of a well-formedness condition. -/
structure Violation (R : Type) where
  /-- The broken condition. -/
  condition : Condition
  /-- The position and a copy of the offending command, if there is one. -/
  place : Option (Nat × Command R)
  /-- The qubits that the breach is about. -/
  qubits : List Qubit
  /-- A description of the breach. -/
  message : String
  deriving BEq, DecidableEq

namespace Violation

variable {R : Type}

/-- A signal is read before its qubit has been measured. -/
def unmeasuredSignal
    (index : Nat)
    (command : Command R)
    (signal : Qubit) : Violation R where
  condition := .measuredSignal
  place := some (index, command)
  qubits := [signal]
  message := "signal " ++ signal.label ++ " is read before it is measured"

/-- A command acts on a qubit that has already been measured. -/
def measuredTarget
    (index : Nat)
    (command : Command R)
    (target : Qubit) : Violation R where
  condition := .unmeasuredTarget
  place := some (index, command)
  qubits := [target]
  message := "qubit " ++ target.label ++ " is acted on after it was measured"

/-- A command acts on a qubit that no preparation declares. -/
def unpreparedTarget
    (index : Nat)
    (command : Command R)
    (target : Qubit) : Violation R where
  condition := .preparedTarget
  place := some (index, command)
  qubits := [target]
  message := "qubit " ++ target.label ++ " is used but never prepared"

/-- A command entangles a qubit with itself. -/
def selfEntanglement
    (index : Nat)
    (command : Command R)
    (qubit : Qubit) : Violation R where
  condition := .distinctPair
  place := some (index, command)
  qubits := [qubit]
  message := "qubit " ++ qubit.label ++ " cannot be entangled with itself"

/-- A declaration repeats a qubit that an earlier one declares. -/
def repeatedPreparation (qubit : Qubit) : Violation R where
  condition := .singlePreparation
  place := none
  qubits := [qubit]
  message := "qubit " ++ qubit.label ++ " is prepared more than once"

/-- The prepared qubits, `count` in number, leave out the missing ones. -/
def gap
    (count : Nat)
    (missing : List Qubit) : Violation R where
  condition := .contiguous
  place := none
  qubits := missing
  message :=
    "prepared qubits are not contiguous from q0: " ++ Nat.repr count ++
      " prepared, missing [" ++ ", ".intercalate (missing.map Qubit.label) ++ "]"

end Violation

end MeasurementCalculus
