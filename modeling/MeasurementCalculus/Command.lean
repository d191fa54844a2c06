import MeasurementCalculus.Signals

/-!
# Commands

The four commands of the calculus. A command acts on its targets and reads the
recorded outcomes of its signals; targets and signals are listed in the order in
which the command mentions them.
-/

namespace MeasurementCalculus

/-- An elementary command of a pattern. -/
inductive Command (R : Type)
  /-- A controlled-Z interaction between two qubits. -/
  | entangle (first second : Qubit)
  /-- A measurement in the equatorial plane. The angle changes its sign when the
  parity of `s` is odd, and pi is added to it when the parity of `t` is odd. -/
  | measure (qubit : Qubit) (angle : R) (s t : Signals)
  /-- A Pauli X on the qubit when the parity of the signals is odd. -/
  | correctX (qubit : Qubit) (signals : Signals)
  /-- A Pauli Z on the qubit when the parity of the signals is odd. -/
  | correctZ (qubit : Qubit) (signals : Signals)
  deriving BEq, DecidableEq

namespace Command

variable {R : Type}

/-- The qubits a command acts on. -/
def targets : Command R → List Qubit
  | .entangle first second => [first, second]
  | .measure qubit .. => [qubit]
  | .correctX qubit _ => [qubit]
  | .correctZ qubit _ => [qubit]

/-- The qubits whose recorded outcomes a command reads. -/
def signals : Command R → Signals
  | .entangle .. => []
  | .measure _ _ s t => s ++ t
  | .correctX _ signals => signals
  | .correctZ _ signals => signals

/-- The qubit a command measures, if it is a measurement. -/
def measured? : Command R → Option Qubit
  | .measure qubit .. => some qubit
  | _ => none

/-- Whether a command entangles two qubits. -/
def isEntangle : Command R → Bool
  | .entangle .. => true
  | _ => false

/-- Whether a command is a measurement. -/
def isMeasure : Command R → Bool
  | .measure .. => true
  | _ => false

/-- Whether a command is a Pauli correction. -/
def isCorrection : Command R → Bool
  | .correctX .. => true
  | .correctZ .. => true
  | _ => false

@[simp] theorem targets_entangle (first second : Qubit) :
    (entangle first second : Command R).targets = [first, second] := rfl

@[simp] theorem targets_measure
    (qubit : Qubit)
    (angle : R)
    (s t : Signals) :
    (measure qubit angle s t).targets = [qubit] := rfl

@[simp] theorem targets_correctX
    (qubit : Qubit)
    (signals : Signals) :
    (correctX qubit signals : Command R).targets = [qubit] := rfl

@[simp] theorem targets_correctZ
    (qubit : Qubit)
    (signals : Signals) :
    (correctZ qubit signals : Command R).targets = [qubit] := rfl

@[simp] theorem signals_entangle (first second : Qubit) :
    (entangle first second : Command R).signals = [] := rfl

@[simp] theorem signals_measure
    (qubit : Qubit)
    (angle : R)
    (s t : Signals) :
    (measure qubit angle s t).signals = s ++ t := rfl

@[simp] theorem signals_correctX
    (qubit : Qubit)
    (signals : Signals) :
    (correctX qubit signals : Command R).signals = signals := rfl

@[simp] theorem signals_correctZ
    (qubit : Qubit)
    (signals : Signals) :
    (correctZ qubit signals : Command R).signals = signals := rfl

end Command

end MeasurementCalculus
