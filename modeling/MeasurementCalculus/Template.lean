import MeasurementCalculus.Ket
import MeasurementCalculus.Qubit

/-!
# Templates

A template describes a pattern by its input states and a sequence of
directives on wires. A wire is an input or an ancilla; ancillas are allocated in
batches and counted across all batches.
-/

namespace MeasurementCalculus

/-- A qubit of a template before it has a number. -/
inductive Wire
  /-- The input at the given position. -/
  | input (index : Nat)
  /-- The ancilla at the given position, counted over all batches. -/
  | ancilla (index : Nat)
  deriving DecidableEq

/-- One step of a template. -/
inductive Directive (R : Type)
  /-- Allocate a batch of ancillas in the equal superposition. -/
  | allocate (count : Nat)
  /-- Entangle two wires by a controlled-Z. -/
  | cz (first second : Wire)
  /-- Move the logical qubit from one wire to a fresh one and apply the rotation
  J to it: the phase of the second basis state is turned by the angle, and then
  the Hadamard transform is applied. -/
  | j (angle : R) (source target : Wire)
  /-- Read a wire out by a measurement at the given angle. -/
  | measure (angle : R) (wire : Wire)
  deriving DecidableEq

/-- A named sequence of directives on input states. -/
structure Template (R : Type) where
  /-- The name that errors mention. -/
  name : String
  /-- The states of the inputs. -/
  inputs : List (Ket R)
  /-- The steps in the order of execution. -/
  directives : List (Directive R)
  deriving DecidableEq

namespace Directive

variable {R : Type}

/-- The number of ancillas that a directive allocates. -/
def allocated : Directive R → Nat
  | .allocate count => count
  | _ => 0

/-- Read a wire out in the X basis. -/
def measureX [Scalar R] (wire : Wire) : Directive R :=
  .measure 0 wire

/-- Read a wire out at the angle pi. -/
def measurePi [Scalar R] (wire : Wire) : Directive R :=
  .measure Scalar.pi wire

end Directive

namespace Template

variable {R : Type}

/-- The number of ancillas that all directives allocate together. -/
def ancillaCount (template : Template R) : Nat :=
  template.directives.foldl (fun count directive => count + directive.allocated) 0

end Template

end MeasurementCalculus
