import MeasurementCalculus.Proofs.Standardization
import Mathlib.Data.List.TakeWhile

/-!
# The shape of the standard form

The standard form of a well-formed pattern is a well-formed pattern of the
same width in three sections: the entanglements of the pattern in their order,
its measurements in their order and at their angles, and corrections. The
corrections that remain act on outputs, since every measured qubit has been
measured before them, and their signals do not cancel.
-/

namespace MeasurementCalculus

namespace Command

variable {R : Type}

theorem isEntangle_of_isMeasure
    {command : Command R}
    (measures : command.isMeasure = true) :
    command.isEntangle = false := by
  cases command with
  | measure qubit angle s t => rfl
  | entangle first second => cases measures
  | correctX qubit signals => rfl
  | correctZ qubit signals => rfl

theorem isEntangle_of_isCorrection
    {command : Command R}
    (correction : command.isCorrection = true) :
    command.isEntangle = false := by
  cases command with
  | measure qubit angle s t => rfl
  | entangle first second => cases correction
  | correctX qubit signals => rfl
  | correctZ qubit signals => rfl

theorem isMeasure_of_isCorrection
    {command : Command R}
    (correction : command.isCorrection = true) :
    command.isMeasure = false := by
  cases command with
  | measure qubit angle s t => cases correction
  | entangle first second => rfl
  | correctX qubit signals => rfl
  | correctZ qubit signals => rfl

end Command

namespace StandardForm

open Command

variable {R : Type}

/-! ## The three sections -/

/-- Commands in three sections: entanglements, measurements and corrections. -/
structure Sections
    (commands entanglements measures corrections : List (Command R)) : Prop where
  /-- The sections follow one another. -/
  commands_eq : commands = entanglements ++ measures ++ corrections
  /-- The first section consists of entanglements. -/
  isEntangle : ∀ command ∈ entanglements, command.isEntangle = true
  /-- The second section consists of measurements. -/
  isMeasure : ∀ command ∈ measures, command.isMeasure = true
  /-- The third section consists of corrections. -/
  isCorrection : ∀ command ∈ corrections, command.isCorrection = true

/-- Entanglements stand in the first section only. -/
theorem Sections.isEntangle_eq_false
    {commands entanglements measures corrections : List (Command R)}
    (sections : Sections commands entanglements measures corrections)
    (command : Command R)
    (member : command ∈ measures ++ corrections) :
    command.isEntangle = false := by
  rcases List.mem_append.1 member with measured | corrected
  · exact isEntangle_of_isMeasure (sections.isMeasure command measured)
  · exact isEntangle_of_isCorrection (sections.isCorrection command corrected)

theorem dropWhile_eq_self
    {α : Type}
    {test : α → Bool}
    {members : List α}
    (fails : ∀ member ∈ members, test member = false) :
    members.dropWhile test = members :=
  List.dropWhile_eq_self_iff.2 fun nonempty => by
    simp [fails _ (List.getElem_mem nonempty)]

/-! ## The scan -/

/-- After a correction, nothing but corrections may follow. -/
theorem isStandardFrom_corrected
    (seenMeasure : Bool)
    (commands : List (Command R)) :
    isStandardFrom seenMeasure true commands = commands.all Command.isCorrection := by
  induction commands with
  | nil => rfl
  | cons command rest inductionHypothesis =>
      rw [List.all_cons]
      cases command with
      | entangle first second => simp [isStandardFrom, Command.isCorrection]
      | measure qubit angle s t => simp [isStandardFrom, Command.isCorrection]
      | correctX qubit signals => exact inductionHypothesis
      | correctZ qubit signals => exact inductionHypothesis

/-- After a measurement, more of them may follow, and corrections behind them. -/
theorem isStandardFrom_measured (commands : List (Command R)) :
    isStandardFrom true false commands =
      (commands.dropWhile Command.isMeasure).all Command.isCorrection := by
  induction commands with
  | nil => rfl
  | cons command rest inductionHypothesis =>
      cases command with
      | entangle first second => rfl
      | measure qubit angle s t => exact inductionHypothesis
      | correctX qubit signals => exact isStandardFrom_corrected true rest
      | correctZ qubit signals => exact isStandardFrom_corrected true rest

/-- The scan succeeds exactly on a block of entanglements, one of measurements and one of
corrections. -/
theorem isStandard_eq_blocks (commands : List (Command R)) :
    isStandard commands =
      ((commands.dropWhile Command.isEntangle).dropWhile
        Command.isMeasure).all Command.isCorrection := by
  unfold isStandard
  induction commands with
  | nil => rfl
  | cons command rest inductionHypothesis =>
      cases command with
      | entangle first second => exact inductionHypothesis
      | measure qubit angle s t => exact isStandardFrom_measured rest
      | correctX qubit signals => exact isStandardFrom_corrected false rest
      | correctZ qubit signals => exact isStandardFrom_corrected false rest

/-- Commands are in standard form exactly if they consist of three sections. -/
theorem isStandard_iff
    {commands : List (Command R)} :
    isStandard commands = true ↔
      ∃ entanglements measures corrections,
        Sections commands entanglements measures corrections := by
  constructor
  · intro standard
    rw [isStandard_eq_blocks] at standard
    refine ⟨commands.takeWhile Command.isEntangle,
      (commands.dropWhile Command.isEntangle).takeWhile Command.isMeasure,
      (commands.dropWhile Command.isEntangle).dropWhile Command.isMeasure, ?_,
      fun _ => List.mem_takeWhile_imp, fun _ => List.mem_takeWhile_imp,
      List.all_eq_true.1 standard⟩
    rw [List.append_assoc, List.takeWhile_append_dropWhile,
      List.takeWhile_append_dropWhile]
  · rintro ⟨entanglements, measures, corrections, sections⟩
    rw [isStandard_eq_blocks, sections.commands_eq, List.append_assoc,
      List.dropWhile_append_of_pos sections.isEntangle,
      dropWhile_eq_self sections.isEntangle_eq_false,
      List.dropWhile_append_of_pos sections.isMeasure,
      dropWhile_eq_self fun command member =>
        isMeasure_of_isCorrection (sections.isCorrection command member)]
    exact List.all_eq_true.2 sections.isCorrection

/-- In the last section of legal commands everything that is ever measured has been
measured, so corrections act on other qubits of the register. -/
theorem Sections.target
    {commands entanglements measures corrections : List (Command R)}
    (sections : Sections commands entanglements measures corrections)
    {width : Nat}
    (legal : AllLegal width [] commands)
    {command : Command R}
    (member : command ∈ corrections)
    {target : Qubit}
    (targeted : target ∈ command.targets) :
    target < width ∧ target ∉ measuredBy commands := by
  rw [sections.commands_eq, allLegal_append] at legal
  rw [sections.commands_eq, measuredBy_append,
    measuredBy_of_isCorrection sections.isCorrection, List.append_nil]
  exact legal.2.target member targeted

/-- The entanglements are those of the first section. -/
theorem Sections.filter_isEntangle
    {commands entanglements measures corrections : List (Command R)}
    (sections : Sections commands entanglements measures corrections) :
    commands.filter Command.isEntangle = entanglements := by
  have noneLater : (measures ++ corrections).filter Command.isEntangle = [] :=
    List.filter_eq_nil_iff.2 fun command member => by
      simp [sections.isEntangle_eq_false command member]
  rw [sections.commands_eq, List.append_assoc, List.filter_append,
    List.filter_eq_self.2 sections.isEntangle, noneLater, List.append_nil]

/-- The corrections are those of the last section. -/
theorem Sections.mem_corrections
    {commands entanglements measures corrections : List (Command R)}
    (sections : Sections commands entanglements measures corrections)
    {command : Command R}
    (member : command ∈ commands)
    (correction : command.isCorrection = true) :
    command ∈ corrections := by
  rw [sections.commands_eq, List.mem_append, List.mem_append] at member
  rcases member with (entangles | measured) | corrected
  · have first := sections.isEntangle command entangles
    rw [isEntangle_of_isCorrection correction] at first
    cases first
  · have second := sections.isMeasure command measured
    rw [isMeasure_of_isCorrection correction] at second
    cases second
  · exact corrected

/-! ## The sections of a standard form -/

/-- Commands without entanglements are settled to measurements followed by effective
corrections. -/
theorem exists_settleFrom_eq
    {pending : List (Command R)}
    (corrections : ∀ command ∈ pending, command.isCorrection = true)
    {commands : List (Command R)}
    (noEntangle : ∀ command ∈ commands, command.isEntangle = false) :
    ∃ measures kept,
      settleFrom pending commands = measures ++ kept ∧
      (∀ command ∈ measures, command.isMeasure = true) ∧
      ∀ command ∈ kept,
        command.isCorrection = true ∧ isEffective command = true := by
  induction commands generalizing pending with
  | nil =>
      refine ⟨[], _, rfl, by simp, fun command member => ?_⟩
      obtain ⟨inside, effective⟩ := List.mem_filter.1 (List.mem_reverse.1 member)
      exact ⟨corrections command inside, effective⟩
  | cons command rest inductionHypothesis =>
      rw [List.forall_mem_cons] at noEntangle
      rcases command.isCorrection_or with
        correction | ⟨first, second, rfl⟩ | ⟨qubit, angle, s, t, rfl⟩
      · rw [settleFrom_correction pending correction]
        exact inductionHypothesis
          (List.forall_mem_cons.2 ⟨correction, corrections⟩) noEntangle.2
      · cases noEntangle.1
      · have remaining : ∀ command ∈
            pending.filter (fun command => !corrects qubit command),
            command.isCorrection = true := fun command member =>
          corrections command (List.mem_filter.1 member).1
        obtain ⟨measures, kept, same, areMeasures, areEffective⟩ :=
          inductionHypothesis remaining noEntangle.2
        rw [settleFrom_measure, same]
        exact ⟨_ :: measures, kept, rfl,
          List.forall_mem_cons.2 ⟨rfl, areMeasures⟩, areEffective⟩

/-- The standard form consists of the entanglements of the commands, measurements and
effective corrections. -/
theorem exists_sections_ofCommands (commands : List (Command R)) :
    ∃ measures corrections,
      Sections (ofCommands commands) (commands.filter Command.isEntangle) measures
        corrections ∧
      ∀ command ∈ corrections, isEffective command = true := by
  have noPending : ∀ command ∈ ([] : List (Command R)),
      command.isCorrection = true := by
    simp
  have noEntangle : ∀ command ∈ (separate commands).others,
      command.isEntangle = false := fun _ =>
    isEntangle_of_mem_others
  obtain ⟨measures, kept, same, areMeasures, areEffective⟩ :=
    exists_settleFrom_eq noPending noEntangle
  refine ⟨measures, kept, ⟨?_, ?_, areMeasures, ?_⟩, ?_⟩
  · rw [ofCommands, settle, same, entanglements_separate, List.append_assoc]
  · exact fun command member => (List.mem_filter.1 member).2
  · exact fun command member => (areEffective command member).1
  · exact fun command member => (areEffective command member).2

end StandardForm

namespace Pattern

variable {R : Type}

theorem outputs_congr
    {first second : Pattern R}
    (samePreparations : first.preparations = second.preparations)
    (sameMeasured : first.measured = second.measured) :
    first.outputs = second.outputs := by
  unfold outputs prepared declared
  rw [samePreparations, sameMeasured]

/-- Only ill-formed patterns are not brought into standard form. The
standard form of any other pattern has the same preparations, entanglements
and measurements, and its corrections act on outputs. -/
theorem standardize_shape (pattern : Pattern R) :
    (∀ error, pattern.standardize = .error error ↔
      ∃ violations, pattern.check = .error violations ∧
        error = .illFormed violations) ∧
    ∀ width, pattern.check = .ok width →
      ∃ standard, pattern.standardize = .ok standard ∧
        standard.check = .ok width ∧
        standard.isStandard = true ∧
        standard.preparations = pattern.preparations ∧
        standard.commands.filter Command.isEntangle =
          pattern.commands.filter Command.isEntangle ∧
        standard.measured = pattern.measured ∧
        Command.readings standard.commands = Command.readings pattern.commands ∧
        standard.inputs = pattern.inputs ∧
        standard.outputs = pattern.outputs ∧
        ∀ command ∈ standard.commands, command.isCorrection = true →
          (∀ target ∈ command.targets, target ∈ standard.outputs) ∧
          Signals.merge command.signals [] ≠ [] := by
  refine ⟨fun error => ?_, fun width accepted => ?_⟩
  · rw [standardize]
    cases pattern.check with
    | error violations => simp [eq_comm]
    | ok width => simp
  · have lawful := ((pattern.check_eq_ok_iff width).1 accepted).ofCommands
    obtain ⟨measures, corrections, sections, effective⟩ :=
      StandardForm.exists_sections_ofCommands pattern.commands
    have sameMeasured := StandardForm.measuredBy_ofCommands pattern.commands
    refine ⟨_, by rw [standardize, accepted], (check_eq_ok_iff _ _).2 lawful,
      StandardForm.isStandard_iff.2 ⟨_, _, _, sections⟩, rfl,
      sections.filter_isEntangle, sameMeasured,
      StandardForm.readings_ofCommands pattern.commands, rfl,
      outputs_congr rfl sameMeasured, fun command member correction => ?_⟩
    have kept := sections.mem_corrections member correction
    constructor
    · intro target targeted
      obtain ⟨below, unmeasured⟩ := sections.target lawful.legal kept targeted
      refine mem_outputs.2 ⟨?_, unmeasured⟩
      rw [lawful.prepared_eq]
      exact List.mem_range.2 below
    · have fires := effective command kept
      rw [StandardForm.isEffective, Signals.cancels] at fires
      simpa [Signals.merge] using fires

/-- Two rotations in a row. The second entanglement has an X correction to pass, and
the signals of the last correction cancel. -/
def twoRotations : Pattern Nat where
  preparations := [.input 0 .plus, .ancillas [1, 2]]
  commands :=
    [.entangle 0 1, .measure 0 5 [] [], .correctX 1 [0], .entangle 1 2,
      .measure 1 7 [] [], .correctX 2 [1], .correctZ 2 [1, 1]]

theorem standardize_shape_twoRotations :
    ∃ standard, twoRotations.standardize = .ok standard ∧
      standard.check = .ok 3 ∧
      standard.isStandard = true ∧
      standard.commands.filter Command.isEntangle = [.entangle 0 1, .entangle 1 2] ∧
      Command.readings standard.commands = [(0, 5), (1, 7)] ∧
      standard.outputs = [2] ∧
      ∀ command ∈ standard.commands, command.isCorrection = true →
        (∀ target ∈ command.targets, target ∈ standard.outputs) ∧
        Signals.merge command.signals [] ≠ [] := by
  have accepted : twoRotations.check = .ok 3 := by decide
  obtain ⟨standard, standardized, checked, inSections, _, entanglements, _, readings,
    _, outputs, corrections⟩ := (standardize_shape twoRotations).2 3 accepted
  exact ⟨standard, standardized, checked, inSections, entanglements, readings,
    outputs.trans (by decide), corrections⟩

end Pattern

end MeasurementCalculus
