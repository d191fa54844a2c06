import MeasurementCalculus.Error
import MeasurementCalculus.WellFormed

/-!
# Programs

A program is a pattern that has passed the well-formedness check,
together with the number of its qubits. Only programs are run, so
that an execution never meets a breach that the check could have
reported.
-/

namespace MeasurementCalculus

/-- A well-formed pattern on the qubits below `width`. -/
structure Program (R : Type) where
  /-- The preparations and commands. -/
  pattern : Pattern R
  /-- The number of qubits. -/
  width : Nat
  /-- The pattern has passed the check. -/
  accepted : pattern.check = .ok width

namespace Pattern

variable {R : Type}

/-- Check a pattern and make it a program if it is well-formed. -/
def toProgram (pattern : Pattern R) : Except (Error R) (Program R) :=
  match accepted : pattern.check with
  | .ok width => .ok ⟨pattern, width, accepted⟩
  | .error breaches => .error (.illFormed breaches)

end Pattern

end MeasurementCalculus
