import MeasurementCalculus.Violation

/-!
# Errors

An error records its cause. Ill-formed patterns are the only fault of the user;
the other kinds point at a defective template, at lost numeric accuracy, at a
request that must be refused, or at a broken invariant of the execution. The
constructors named `described` hold a cause that is given in words only.
-/

namespace MeasurementCalculus

/-- Why a single directive of a template cannot be compiled. -/
inductive DirectiveFault
  /-- The directive names an input that the template does not have. -/
  | undefinedInput (input arity : Nat)
  /-- The directive names an ancilla before it is allocated. -/
  | unallocatedAncilla (ancilla allocated : Nat)
  /-- The directive allocates no ancilla. -/
  | emptyBatch
  /-- Both wires of a controlled-Z are the same. -/
  | singleWireCZ (qubit : Qubit)
  /-- A rotation takes its output wire from its own input. -/
  | singleWireJ (qubit : Qubit)
  deriving BEq, DecidableEq

/-- Why a template cannot be compiled. -/
inductive TemplateFault (R : Type)
  /-- The directive at the given position is at fault. -/
  | directive (index : Nat) (fault : DirectiveFault)
  /-- The compiled pattern breaks well-formedness conditions. -/
  | illFormed (violations : List (Violation R))
  /-- The fault is given in words. -/
  | described (text : String)
  deriving BEq, DecidableEq

/-- Where a total probability was found to deviate from one. -/
inductive NumericContext
  /-- The product state in which a program starts. -/
  | initialState
  /-- The two outcome probabilities of the measurement at a position. -/
  | measurement (qubit : Qubit) (index : Nat)
  /-- The state after the collapse at a position. -/
  | collapse (qubit : Qubit) (index : Nat)
  /-- The probability of an outcome that cannot occur. -/
  | impossibleOutcome (qubit : Qubit) (bit : Bool) (index : Nat)
  /-- The sum over all enumerated branches. -/
  | exactDistribution
  /-- The place is given in words. -/
  | described (text : String)
  deriving BEq, DecidableEq

/-- Why a request is refused before anything runs. -/
inductive Refusal (R : Type)
  /-- The pattern is not well-formed. -/
  | rejected (violations : List (Violation R))
  /-- The program has more qubits than the simulator accepts. -/
  | tooManyQubits (width limit : Nat)
  /-- The reason is given in words, with the violations that belong to it. -/
  | described (text : String) (violations : List (Violation R))
  deriving BEq, DecidableEq

/-- Which invariant of the execution is broken. -/
inductive InternalFault
  /-- A qubit lies outside the register. -/
  | outOfRange (qubit : Qubit) (width : Nat)
  /-- A qubit of the register has no initial state. -/
  | unprepared (qubit : Qubit)
  /-- The outcome of a qubit is read before it is recorded. -/
  | unrecorded (qubit : Qubit)
  /-- A measurement is applied as if it had no outcome. -/
  | measurementApplied (index : Nat)
  /-- The fault is given in words. -/
  | described (text : String)
  deriving BEq, DecidableEq

/-- What can go wrong while a pattern is checked, compiled or run. -/
inductive Error (R : Type)
  /-- The pattern breaks well-formedness conditions. -/
  | illFormed (violations : List (Violation R))
  /-- The named template has a defect. -/
  | template (name : String) (fault : TemplateFault R)
  /-- A total probability deviates from one by more than the tolerance. -/
  | numeric (context : NumericContext) (total tolerance : R)
  /-- The request is refused. -/
  | refused (reason : Refusal R)
  /-- An invariant of the execution is broken. -/
  | internal (fault : InternalFault)
  deriving BEq, DecidableEq

namespace Refusal

variable {R : Type}

/-- The violations that belong to a refusal. -/
def violations : Refusal R → List (Violation R)
  | .rejected violations => violations
  | .tooManyQubits .. => []
  | .described _ violations => violations

end Refusal

namespace Error

variable {R : Type}

/-- The violations that an error carries; only ill-formed patterns and refusals
have any. -/
def violations : Error R → List (Violation R)
  | .illFormed violations => violations
  | .refused reason => reason.violations
  | _ => []

end Error

end MeasurementCalculus
