import MeasurementCalculus.Random.Generator
import MeasurementCalculus.Run.Enumeration
import MeasurementCalculus.Run.Shot

/-!
# The simulator

A simulator evaluates programs, either by sampling a number of shots or exactly.
It refuses patterns that are not well-formed and programs with more qubits than
its limit. Shots are independent: the seeds of all shots are drawn first, and
every shot then runs on a generator of its own.
-/

namespace MeasurementCalculus

/-- The settings of a simulator. -/
structure Simulator (R : Type) [Scalar R] where
  /-- The seed from which the seeds of the shots are drawn. -/
  seed : UInt64 := 0
  /-- The accepted deviation of total probabilities and norms from one. -/
  tolerance : R := Scalar.defaultTolerance
  /-- The largest number of qubits that is accepted. -/
  maxQubits : Nat := 20

/-- How a program is evaluated. -/
inductive Mode
  /-- Sample the given number of shots. -/
  | shots (count : Nat)
  /-- Enumerate all branches. -/
  | exact
  deriving DecidableEq

/-- The result of an evaluation. -/
inductive Evaluation (R : Type)
  /-- One outcome for each shot. -/
  | shots (outcomes : List Outcome)
  /-- The exact distribution of the outcomes. -/
  | exact (distribution : Distribution R)

namespace Evaluation

variable {R : Type} [Scalar R]

/-- The outcomes of the shots, if any were sampled. -/
def outcomes? : Evaluation R → Option (List Outcome)
  | .shots outcomes => some outcomes
  | .exact _ => none

/-- The exact distribution, if it was computed. -/
def exactDistribution? : Evaluation R → Option (Distribution R)
  | .shots _ => none
  | .exact distribution => some distribution

/-- The exact distribution or the frequencies of the shots. -/
def distribution : Evaluation R → Distribution R
  | .shots outcomes => .ofSamples outcomes
  | .exact distribution => distribution

end Evaluation

namespace Simulator

variable {R : Type} [Scalar R]

/-- Refuse programs with more qubits than the limit. -/
def checkCapacity
    (simulator : Simulator R)
    (program : Program R) : Except (Error R) Unit :=
  if simulator.maxQubits < program.width then
    .error (.refused (.tooManyQubits program.width simulator.maxQubits))
  else .ok ()

/-- The exact distribution of a program. -/
@[specialize] def exactDistribution
    (simulator : Simulator R)
    (program : Program R) : Except (Error R) (Distribution R) := do
  simulator.checkCapacity program
  program.enumerate simulator.tolerance

section Shots

variable {G : Type} [Generator G] [DrawSource G R]

/-- Sample shots with seeds drawn from a generator; the generator after the last
seed is returned with the outcomes. -/
@[specialize] def shotsFrom
    (simulator : Simulator R)
    (program : Program R)
    (count : Nat)
    (generator : G) : Except (Error R) (List Outcome × G) := do
  simulator.checkCapacity program
  let (seeds, generator) := Generator.words generator count
  let outcomes ← seeds.mapM fun seed =>
    (program.shoot simulator.tolerance (Generator.ofSeed seed : G)).map Prod.fst
  .ok (outcomes, generator)

/-- Evaluate a program. The type `G` says which generator is used. -/
@[specialize] def evaluateProgram
    (G : Type)
    [Generator G]
    [DrawSource G R]
    (simulator : Simulator R)
    (program : Program R) :
    Mode → Except (Error R) (Evaluation R)
  | .shots count => do
      let (outcomes, _) ←
        simulator.shotsFrom program count (Generator.ofSeed simulator.seed : G)
      .ok (.shots outcomes)
  | .exact => do
      let distribution ← simulator.exactDistribution program
      .ok (.exact distribution)

/-- Check a pattern and evaluate it. -/
@[specialize] def evaluate
    (G : Type)
    [Generator G]
    [DrawSource G R]
    (simulator : Simulator R)
    (pattern : Pattern R)
    (mode : Mode) : Except (Error R) (Evaluation R) :=
  match accepted : pattern.check with
  | .error breaches => .error (.refused (.rejected breaches))
  | .ok width =>
      simulator.evaluateProgram G ⟨pattern, width, accepted⟩ mode

end Shots

end Simulator

end MeasurementCalculus
