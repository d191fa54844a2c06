import MeasurementCalculus.Distribution
import MeasurementCalculus.Run.Measurement

/-!
# Enumeration of all branches

The exact distribution of a program follows every possible outcome of every
measurement. A branch is a run together with the probability of the outcomes
that it has recorded. Each command is executed on all branches before the next
one, and a measurement replaces a branch by one for each outcome that can occur.
-/

namespace MeasurementCalculus

/-- A run with the probability of its recorded outcomes. -/
structure Branch (R : Type) (n : Nat) where
  /-- The run so far. -/
  run : Run R n
  /-- The probability of having come here. -/
  probability : R

namespace Branch

variable {R : Type} [Scalar R] {n : Nat}

/-- The branch that takes one outcome of a pending measurement. -/
@[specialize] def take
    (branch : Branch R n)
    (tolerance : R)
    (index : Nat)
    (pending : PendingMeasurement R n)
    (outcome : Bool) : Except (Error R) (Branch R n) := do
  let run ← branch.run.collapse tolerance index pending outcome
  .ok ⟨run, branch.probability * pending.probability outcome / pending.total⟩

/-- Execute the command at position `index` on one branch. -/
@[specialize] def step
    (tolerance : R)
    (index : Nat)
    (command : Command R)
    (branch : Branch R n) : Except (Error R) (List (Branch R n)) :=
  match command with
  | .measure qubit angle s t => do
      let pending ←
        branch.run.measurement tolerance index qubit angle s t
      ([false, true].filter pending.isPossible).mapM
        (branch.take tolerance index pending)
  | _ => do
      let run ← branch.run.apply index command
      .ok [{ branch with run }]

/-- Execute commands, of which the first has the given position, on all
branches. -/
@[specialize] def enumerateFrom
    (tolerance : R)
    (index : Nat)
    (branches : List (Branch R n)) :
    List (Command R) → Except (Error R) (List (Branch R n))
  | [] => .ok branches
  | command :: rest => do
      let next ← branches.mapM (step tolerance index command)
      enumerateFrom tolerance (index + 1) next.flatten rest

end Branch

namespace Program

variable {R : Type} [Scalar R]

/-- Every branch of a program at its end. -/
@[specialize] def branches
    (program : Program R)
    (tolerance : R) : Except (Error R) (List (Branch R program.width)) := do
  let run ← Run.start program tolerance
  Branch.enumerateFrom tolerance 0 [⟨run, 1⟩] program.pattern.commands

/-- The exact distribution of the outcomes of a program. -/
@[specialize] def enumerate
    (program : Program R)
    (tolerance : R) : Except (Error R) (Distribution R) := do
  let branches ← program.branches tolerance
  let entries ← branches.mapM fun branch =>
    branch.run.readOutcome.map fun outcome => (outcome, branch.probability)
  let distribution : Distribution R := Tally.empty.recordAll entries
  acceptTotal distribution.total tolerance .exactDistribution
  .ok distribution

end Program

end MeasurementCalculus
