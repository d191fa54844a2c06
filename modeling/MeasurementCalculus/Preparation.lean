import MeasurementCalculus.Ket
import MeasurementCalculus.Qubit

/-!
# Preparations

A preparation declares qubits together with the states they start in. An input
is one qubit in a chosen state; ancillas come in batches and all start in the
equal superposition.
-/

namespace MeasurementCalculus

/-- The declaration of one input or of a batch of ancillas. -/
inductive Preparation (R : Type)
  /-- One input qubit in the given state. -/
  | input (qubit : Qubit) (ket : Ket R)
  /-- Ancillas, each in the equal superposition of the basis states. -/
  | ancillas (qubits : List Qubit)
  deriving BEq, DecidableEq

namespace Preparation

variable {R : Type}

/-- The declared qubits with their initial states, in declaration order. -/
def declared : Preparation R → List (Qubit × Ket R)
  | .input qubit ket => [(qubit, ket)]
  | .ancillas qubits => qubits.map fun qubit => (qubit, .plus)

@[simp] theorem declared_input
    (qubit : Qubit)
    (ket : Ket R) :
    (input qubit ket).declared = [(qubit, ket)] := rfl

@[simp] theorem declared_ancillas (qubits : List Qubit) :
    (ancillas qubits : Preparation R).declared =
      qubits.map fun qubit => (qubit, .plus) := rfl

/-- Whether the declared qubits are inputs of the pattern. -/
def isInput : Preparation R → Bool
  | .input .. => true
  | .ancillas .. => false

end Preparation

end MeasurementCalculus
