import MeasurementCalculus.Template

/-!
# A library of gates

The rotation J together with the controlled-Z is universal. The templates below
build the Hadamard and the phase gate from rotations, and the search for a
marked basis state of two qubits from both.
-/

namespace MeasurementCalculus

namespace Template

variable {R : Type} [Scalar R]

/-- The rotation J of one input; the output is its only ancilla. -/
def rotation
    (angle : R)
    (input : Ket R) : Template R where
  name := "J"
  inputs := [input]
  directives := [.allocate 1, .j angle (.input 0) (.ancilla 0)]

/-- The Hadamard gate: the rotation J at angle zero. -/
def hadamard (input : Ket R) : Template R :=
  { rotation 0 input with name := "H" }

/-- The gate that turns the phase of the second basis state by an angle; the
output is its second ancilla. -/
def phase
    (angle : R)
    (input : Ket R) : Template R where
  name := "P"
  inputs := [input]
  directives :=
    [.allocate 2, .j angle (.input 0) (.ancilla 0),
      .j 0 (.ancilla 0) (.ancilla 1)]

/-- The controlled-Z gate on two inputs, which needs no ancilla. -/
def controlledZ (first second : Ket R) : Template R where
  name := "CZ"
  inputs := [first, second]
  directives := [.cz (.input 0) (.input 1)]

/-- The angles that mark the basis state with the given bits in the search: each
is zero for a one and pi for a zero. -/
def searchAngles (first second : Bool) : R × R :=
  (if first then 0 else Scalar.pi, if second then 0 else Scalar.pi)

/-- One digit for a bit. -/
def digit (bit : Bool) : String :=
  if bit then "1" else "0"

/-- The search for the basis state with the given bits on a cluster of four
qubits in a box. The outcomes of the two ancillas are the bits with certainty,
and those of the two inputs are uniformly random. -/
def search (first second : Bool) : Template R :=
  let (alpha, beta) := searchAngles first second
  { name := "grover[" ++ digit first ++ digit second ++ "]"
    inputs := [.plus, .plus]
    directives :=
      [.allocate 2, .cz (.input 0) (.input 1),
        .j beta (.input 0) (.ancilla 0), .j alpha (.input 1) (.ancilla 1),
        .cz (.ancilla 0) (.ancilla 1),
        .measurePi (.ancilla 0), .measurePi (.ancilla 1)] }

end Template

end MeasurementCalculus
