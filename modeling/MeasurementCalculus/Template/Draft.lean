import MeasurementCalculus.Error
import MeasurementCalculus.Template
import MeasurementCalculus.WellFormed

/-!
# From templates to patterns

A draft is the part of a pattern that the directives read so far have
produced. Inputs and ancillas become consecutive qubits, so the numbering has
no gap. A rotation becomes an entanglement, a measurement of its source at the
negated angle, and an X correction of its target. The first faulty directive
is reported; the finished pattern is checked as a whole.
-/

namespace MeasurementCalculus

/-- The pattern that some of the directives of a template have produced. -/
structure Draft (R : Type) where
  /-- The number of allocated ancillas. -/
  allocated : Nat := 0
  /-- The declarations of inputs and ancillas. -/
  preparations : List (Preparation R)
  /-- The commands in program order. -/
  commands : List (Command R) := []

namespace Draft

variable {R : Type}

/-- The draft before the first directive: every input is declared. -/
def ofInputs (inputs : List (Ket R)) : Draft R where
  preparations := inputs.zipIdx.map fun (ket, index) => .input index ket

/-- The qubit of a wire in a template with `arity` inputs, of which `allocated`
ancillas exist. -/
def resolve
    (arity allocated : Nat) : Wire → Except DirectiveFault Qubit
  | .input index =>
      if index < arity then .ok index
      else .error (.undefinedInput index arity)
  | .ancilla index =>
      if index < allocated then .ok (arity + index)
      else .error (.unallocatedAncilla index allocated)

/-- Declare the next `count` ancillas. -/
def allocate
    (draft : Draft R)
    (arity count : Nat) : Draft R :=
  { draft with
    allocated := draft.allocated + count
    preparations := draft.preparations ++
      [.ancillas (List.range' (arity + draft.allocated) count)] }

/-- Append commands. -/
def emit
    (draft : Draft R)
    (commands : List (Command R)) : Draft R :=
  { draft with commands := draft.commands ++ commands }

/-- Add what one directive of a template with `arity` inputs produces. -/
def add
    [Scalar R]
    (arity : Nat)
    (draft : Draft R) :
    Directive R → Except DirectiveFault (Draft R)
  | .allocate count =>
      if count = 0 then .error .emptyBatch
      else .ok (draft.allocate arity count)
  | .cz first second => do
      let a ← resolve arity draft.allocated first
      let b ← resolve arity draft.allocated second
      if a = b then .error (.singleWireCZ a)
      else .ok (draft.emit [.entangle a b])
  | .j angle source target => do
      let a ← resolve arity draft.allocated source
      let b ← resolve arity draft.allocated target
      if a = b then .error (.singleWireJ a)
      else .ok (draft.emit
        [.entangle a b, .measure a (-angle) [] [], .correctX b [a]])
  | .measure angle wire => do
      let a ← resolve arity draft.allocated wire
      .ok (draft.emit [.measure a angle [] []])

/-- Add directives of which the first has the given position; a fault is
reported with the position of its directive. -/
def addAll
    [Scalar R]
    (arity index : Nat)
    (draft : Draft R) :
    List (Directive R) → Except (TemplateFault R) (Draft R)
  | [] => .ok draft
  | directive :: rest =>
      match draft.add arity directive with
      | .error fault => .error (.directive index fault)
      | .ok next => next.addAll arity (index + 1) rest

/-- The pattern of a finished draft. -/
def toPattern (draft : Draft R) : Pattern R where
  preparations := draft.preparations
  commands := draft.commands

end Draft

namespace Template

variable {R : Type} [Scalar R]

/-- The draft that all directives of a template produce. -/
def draft (template : Template R) : Except (TemplateFault R) (Draft R) :=
  (Draft.ofInputs template.inputs).addAll template.inputs.length 0
    template.directives

/-- The pattern of a template, or the fault of a directive or of the pattern as a
whole. -/
def toPattern (template : Template R) : Except (TemplateFault R) (Pattern R) :=
  match template.draft with
  | .error fault => .error fault
  | .ok draft =>
      match draft.toPattern.check with
      | .error breaches => .error (.illFormed breaches)
      | .ok _ => .ok draft.toPattern

/-- Compile a template to a well-formed pattern. -/
def compile (template : Template R) : Except (Error R) (Pattern R) :=
  template.toPattern.mapError (.template template.name)

end Template

end MeasurementCalculus
