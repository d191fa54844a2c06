import MeasurementCalculus.Proofs.Absorption
import MeasurementCalculus.Proofs.Draws
import MeasurementCalculus.Proofs.Hoisting

/-!
# Standard form keeps the meaning of programs

Bringing a program into standard form moves its entanglements to the front and
lets its measurements absorb its corrections. Along every path neither step
changes a conditional probability or the state of the outputs. So the
enumerations of both programs go through the same branches, and the same draws
select the same outcomes.
-/

namespace MeasurementCalculus

namespace StandardForm

open Command

variable {R : Type}

/-- The standard form measures the same qubits at the same angles in the same
order. -/
theorem readings_ofCommands (commands : List (Command R)) :
    readings (ofCommands commands) = readings commands := by
  obtain ⟨noReading, sameReadings⟩ := readings_separate commands
  have noPending : ∀ command ∈ ([] : List (Command R)),
      command.isCorrection = true := by
    simp
  unfold ofCommands settle
  rw [readings_append, noReading, readings_settleFrom noPending, sameReadings,
    List.nil_append]

theorem measuredBy_ofCommands (commands : List (Command R)) :
    measuredBy (ofCommands commands) = measuredBy commands := by
  rw [measuredBy_eq_map_readings, readings_ofCommands, measuredBy_eq_map_readings]

/-- The standard form of legal commands is legal. -/
theorem allLegal_ofCommands
    {width : Nat}
    {commands : List (Command R)}
    (legal : AllLegal width [] commands) :
    AllLegal width [] (ofCommands commands) := by
  obtain ⟨entanglements, others⟩ := allLegal_separate legal
  obtain ⟨noMeasure, _⟩ := measuredBy_separate commands
  unfold ofCommands settle
  rw [allLegal_append, noMeasure]
  refine ⟨entanglements, allLegal_settleFrom ?_ ?_ others⟩
  · simp
  · simp

/-- Along every path the standard form has the same conditional probabilities, and
it leads to the same wave up to unitary gates on measured qubits. -/
theorem follow_ofCommands
    {n : Nat}
    (bits : Qubit → Bool)
    {commands : List (Command ℝ)}
    (legal : AllLegal n [] commands)
    (wave : Wave n) :
    Wave.GatesOn (measuredBy commands)
        (Wave.follow bits commands wave)
        (Wave.follow bits (ofCommands commands) wave) ∧
      Wave.conditionals bits commands wave =
        Wave.conditionals bits (ofCommands commands) wave := by
  obtain ⟨noMeasure, sameMeasured⟩ := measuredBy_separate commands
  obtain ⟨separatedWave, separatedConditionals⟩ := follow_separate bits legal wave
  have noPending : ∀ command ∈ ([] : List (Command ℝ)),
      command.isCorrection = true := by
    simp
  obtain ⟨gates, settledConditionals⟩ := follow_settleFrom bits noPending
    (fun _ => isEntangle_of_mem_others) (allLegal_separate legal).2
    (Wave.follow bits (separate commands).entanglements wave)
  unfold ofCommands settle
  rw [separatedWave, separatedConditionals, Wave.follow_append,
    Wave.conditionals_append, (Wave.normSq_follow bits noMeasure wave).2,
    ← sameMeasured]
  exact ⟨gates, settledConditionals⟩

end StandardForm

namespace Pattern

variable {R : Type}

/-- The standard form of a lawful pattern is lawful for the same width. -/
theorem Lawful.ofCommands
    {width : Nat}
    {pattern : Pattern R}
    (lawful : pattern.Lawful width) :
    ({ pattern with commands := StandardForm.ofCommands pattern.commands } :
      Pattern R).Lawful width where
  declared_nodup := lawful.declared_nodup
  prepared_eq := lawful.prepared_eq
  legal := StandardForm.allLegal_ofCommands lawful.legal

end Pattern

namespace Program

/-- The standard form of a program. -/
def standardForm
    {R : Type}
    (program : Program R) : Program R where
  pattern :=
    { program.pattern with
      commands := StandardForm.ofCommands program.pattern.commands }
  width := program.width
  accepted := (Pattern.check_eq_ok_iff _ _).2 program.lawful.ofCommands

theorem standardize_eq_ok
    {R : Type}
    (program : Program R) :
    program.pattern.standardize = .ok program.standardForm.pattern := by
  unfold Pattern.standardize
  rw [program.accepted]
  rfl

end Program

/-- The same branch of a program and of its standard form: outcome and probability
are the same, and the registers differ at most in the measured qubits and by a
factor of modulus one. -/
structure Branch.Matches
    {n : Nat}
    (measured : List Qubit)
    (first second : Branch ℝ n) : Prop where
  /-- The outcomes are the same. -/
  outcome_eq : second.run.outcome = first.run.outcome
  /-- The probabilities are the same. -/
  probability_eq : second.probability = first.probability
  /-- The registers agree off the measured qubits. -/
  agreeOff :
    Wave.AgreeOff measured first.run.register.wave second.run.register.wave

namespace StandardForm

open Command

variable {n : Nat}

/-- Every path ends in matching branches. -/
theorem matches_along
    (initial : Wave n)
    {commands : List (Command ℝ)}
    (legal : AllLegal n [] commands)
    (bits : Qubit → Bool) :
    Branch.Matches (measuredBy commands)
      (.along initial commands bits)
      (.along initial (ofCommands commands) bits) := by
  obtain ⟨gates, _⟩ := follow_ofCommands bits legal initial
  obtain ⟨kets, core, factors⟩ :=
    (Wave.factors_nil initial).follow bits (allLegal_ofCommands legal)
  rw [List.nil_append, measuredBy_ofCommands] at factors
  refine ⟨?_, gates.normSq_eq.symm, ?_⟩
  · rw [Branch.outcome_along (allLegal_ofCommands legal), Branch.outcome_along legal,
      measuredBy_ofCommands]
  · rw [Branch.wave_along, Branch.wave_along, Wave.normalized, Wave.normalized,
      gates.normSq_eq]
    exact (factors.agreeOff gates).smul _

/-- The kept branches of legal commands and of their standard form match one by
one. -/
theorem forall₂_kept
    (initial : Wave n)
    {commands : List (Command ℝ)}
    (legal : AllLegal n [] commands) :
    List.Forall₂ (Branch.Matches (measuredBy commands))
      (Branch.kept initial commands)
      (Branch.kept initial (ofCommands commands)) := by
  have sameKept (bits : Qubit → Bool) :
      Wave.Kept bits (ofCommands commands) initial ↔
        Wave.Kept bits commands initial := by
    rw [Wave.Kept, Wave.Kept, (follow_ofCommands bits legal initial).2]
  unfold Branch.kept
  simp only [measuredBy_ofCommands, sameKept]
  rw [List.forall₂_map_left_iff, List.forall₂_map_right_iff, List.forall₂_same]
  exact fun bits _ => matches_along initial legal bits

end StandardForm

namespace Program

theorem pathDistribution_standardForm (program : Program ℝ) :
    program.standardForm.pathDistribution = program.pathDistribution := by
  have pairs := StandardForm.forall₂_kept
    (program.pattern.initialWave program.width) program.lawful.legal
  have same : List.Forall₂ (· = ·)
      ((Branch.kept (program.pattern.initialWave program.width)
        program.standardForm.pattern.commands).map fun branch =>
          (branch.run.outcome, branch.probability))
      ((Branch.kept (program.pattern.initialWave program.width)
        program.pattern.commands).map fun branch =>
          (branch.run.outcome, branch.probability)) := by
    rw [List.forall₂_map_left_iff, List.forall₂_map_right_iff]
    refine pairs.flip.imp fun second first matched => ?_
    rw [matched.outcome_eq, matched.probability_eq]
  rw [List.forall₂_eq_eq_eq] at same
  exact congrArg Tally.empty.recordAll same

/-- Bringing a program into standard form keeps its meaning: the enumeration
has the same result, and the branches have one by one the same outcome,
probability and state of the unmeasured qubits, up to a phase. -/
theorem standardize_keeps_meaning
    (program : Program ℝ)
    {tolerance : ℝ}
    (nonneg : 0 ≤ tolerance) :
    program.pattern.standardize = .ok program.standardForm.pattern ∧
    program.standardForm.enumerate tolerance = program.enumerate tolerance ∧
    ∃ original standard : List (Branch ℝ program.width),
      program.branches tolerance = .ok original ∧
      program.standardForm.branches tolerance = .ok standard ∧
      List.Forall₂ (Branch.Matches program.pattern.measured)
        original standard := by
  refine ⟨program.standardize_eq_ok, ?_, _, _, program.branches_eq_ok nonneg,
    program.standardForm.branches_eq_ok nonneg,
    StandardForm.forall₂_kept _ program.lawful.legal⟩
  rw [program.enumerate_eq nonneg, program.standardForm.enumerate_eq nonneg,
    pathDistribution_standardForm]

theorem standardize_adaptive :
    adaptive.standardForm.enumerate 1 = .ok adaptive.pathDistribution ∧
      ∃ original standard,
        adaptive.branches 1 = .ok original ∧
        adaptive.standardForm.branches 1 = .ok standard ∧
        List.Forall₂ (Branch.Matches [0, 1]) original standard := by
  obtain ⟨_, same, pairs⟩ := adaptive.standardize_keeps_meaning zero_le_one
  rw [same]
  exact ⟨adaptive.enumerate_eq_ok_of_one_le le_rfl, pairs⟩

/-! ## Shots -/

/-- A shot of the standard form has the same result as a shot of the program. -/
theorem shoot_standardForm
    {G : Type}
    [DrawSource G ℝ]
    (program : Program ℝ)
    (tolerance : ℝ)
    (source : G) :
    program.standardForm.shoot tolerance source = program.shoot tolerance source := by
  refine shoot_congr ?_ (fun bits => ?_) tolerance source
  · exact StandardForm.measuredBy_ofCommands program.pattern.commands
  · exact (StandardForm.follow_ofCommands bits program.lawful.legal _).2.symm

/-- Bringing a program into standard form does not change its shots: both
have the same outcome for the same draws, and leave the source in the same
state. -/
theorem standardize_keeps_shots (program : Program ℝ) :
    program.pattern.standardize = .ok program.standardForm.pattern ∧
    (∀ (G : Type) [DrawSource G ℝ] (source : G) (tolerance : ℝ), 0 ≤ tolerance →
      ∃ outcome rest,
        program.shoot tolerance source = .ok (outcome, rest) ∧
        program.standardForm.shoot tolerance source = .ok (outcome, rest)) ∧
    ∀ (G : Type) [Generator G] [DrawSource G ℝ] (generator : G)
      (simulator : Simulator ℝ) (count : Nat),
      simulator.shotsFrom program.standardForm count generator =
        simulator.shotsFrom program count generator := by
  refine ⟨program.standardize_eq_ok, fun G _ source tolerance nonneg => ?_,
    fun G _ _ generator simulator count => ?_⟩
  · obtain ⟨path, _, _, shot⟩ := program.exists_shoot_eq_ok nonneg source
    exact ⟨_, _, shot, (program.shoot_standardForm tolerance source).trans shot⟩
  · have sameWidth : program.standardForm.width = program.width := rfl
    unfold Simulator.shotsFrom Simulator.checkCapacity
    simp only [sameWidth, shoot_standardForm]

theorem standardize_keeps_shots_adaptive :
    ∀ draws : Stream' ℝ, ∃ outcome rest,
      adaptive.shoot 0 draws = .ok (outcome, rest) ∧
      adaptive.standardForm.shoot 0 draws = .ok (outcome, rest) := by
  obtain ⟨_, shots, _⟩ := standardize_keeps_shots adaptive
  exact fun draws => shots _ draws 0 le_rfl

end Program

end MeasurementCalculus
