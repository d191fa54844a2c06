import MeasurementCalculus.Proofs.NormalForm

/-!
# Fixed points of standardization

Commands are in standard form exactly if only entanglements stand before an
entanglement and only corrections after a correction. On such commands nothing
moves, no measurement finds a correction to absorb, and corrections stay
unless their signals cancel. So the fixed points are the well-formed patterns
in standard form without idle corrections.
-/

namespace MeasurementCalculus

namespace Command

variable {R : Type}

/-- The section of a standard form to which a command belongs, counted from zero. -/
def stage : Command R → Nat
  | .entangle .. => 0
  | .measure .. => 1
  | .correctX .. => 2
  | .correctZ .. => 2

theorem isEntangle_iff_stage_eq (command : Command R) :
    command.isEntangle = true ↔ command.stage = 0 := by
  cases command <;> simp [isEntangle, stage]

theorem isMeasure_iff_stage_eq (command : Command R) :
    command.isMeasure = true ↔ command.stage = 1 := by
  cases command <;> simp [isMeasure, stage]

theorem isCorrection_iff_two_le_stage (command : Command R) :
    command.isCorrection = true ↔ 2 ≤ command.stage := by
  cases command <;> simp [isCorrection, stage]

theorem stage_le_two (command : Command R) : command.stage ≤ 2 := by
  cases command <;> simp [stage]

end Command

namespace StandardForm

open Command

variable {R : Type}

/-- Commands are in standard form exactly if no command comes after one of a later
section. -/
theorem isStandard_iff_pairwise
    {commands : List (Command R)} :
    isStandard commands = true ↔
      commands.Pairwise fun earlier later => earlier.stage ≤ later.stage := by
  constructor
  · intro standard
    obtain ⟨entanglements, measures, corrections, sections⟩ := isStandard_iff.1 standard
    have first (command : Command R) (member : command ∈ entanglements) :
        command.stage = 0 :=
      command.isEntangle_iff_stage_eq.1 (sections.isEntangle command member)
    have second (command : Command R) (member : command ∈ measures) :
        command.stage = 1 :=
      command.isMeasure_iff_stage_eq.1 (sections.isMeasure command member)
    have third (command : Command R) (member : command ∈ corrections) :
        2 ≤ command.stage :=
      command.isCorrection_iff_two_le_stage.1 (sections.isCorrection command member)
    rw [sections.commands_eq, List.pairwise_append, List.pairwise_append]
    refine ⟨⟨?_, ?_, ?_⟩, ?_, ?_⟩
    · refine List.pairwise_of_forall_mem_list fun earlier early later late => ?_
      rw [first earlier early, first later late]
    · refine List.pairwise_of_forall_mem_list fun earlier early later late => ?_
      rw [second earlier early, second later late]
    · intro earlier early later late
      rw [first earlier early]
      exact Nat.zero_le _
    · refine List.pairwise_of_forall_mem_list fun earlier early later late => ?_
      exact earlier.stage_le_two.trans (third later late)
    · intro earlier early later late
      exact earlier.stage_le_two.trans (third later late)
  · intro ordered
    rw [isStandard_eq_blocks]
    -- The first command decides which sections may still follow.
    induction ordered with
    | nil => rfl
    | @cons command rest before _ inductionHypothesis =>
        cases command with
        | entangle first second => exact inductionHypothesis
        | measure qubit angle s t =>
            have noEntangle (later : Command R) (member : later ∈ rest) :
                later.isEntangle = false := by
              have after := before later member
              cases later with
              | entangle first second => cases after
              | measure qubit angle s t => rfl
              | correctX qubit signals => rfl
              | correctZ qubit signals => rfl
            rw [dropWhile_eq_self noEntangle] at inductionHypothesis
            exact inductionHypothesis
        | correctX qubit signals =>
            exact List.all_eq_true.2 (List.forall_mem_cons.2 ⟨rfl, fun later member =>
              later.isCorrection_iff_two_le_stage.2 (before later member)⟩)
        | correctZ qubit signals =>
            exact List.all_eq_true.2 (List.forall_mem_cons.2 ⟨rfl, fun later member =>
              later.isCorrection_iff_two_le_stage.2 (before later member)⟩)

/-! ## What stays -/

/-- Entanglements that have nothing to pass are kept as they are. -/
theorem foldl_push_of_isEntangle
    {commands : List (Command R)}
    (entangle : ∀ command ∈ commands, command.isEntangle = true)
    (front : List (Command R)) :
    commands.foldl Separated.push { entanglements := front } =
      { entanglements := front ++ commands } := by
  induction commands generalizing front with
  | nil => rw [List.foldl_nil, List.append_nil]
  | cons command rest inductionHypothesis =>
      rw [List.forall_mem_cons] at entangle
      have later := inductionHypothesis entangle.2 (front ++ [command])
      rw [List.append_assoc, List.singleton_append] at later
      cases command with
      | entangle first second => exact later
      | measure qubit angle s t => cases entangle.1
      | correctX qubit signals => cases entangle.1
      | correctZ qubit signals => cases entangle.1

/-- Commands that do not entangle are kept as they are. -/
theorem foldl_push_of_not_isEntangle
    {commands : List (Command R)}
    (others : ∀ command ∈ commands, command.isEntangle = false)
    (separated : Separated R) :
    commands.foldl Separated.push separated =
      { separated with others := separated.others ++ commands } := by
  induction commands generalizing separated with
  | nil => rw [List.foldl_nil, List.append_nil]
  | cons command rest inductionHypothesis =>
      rw [List.forall_mem_cons] at others
      rw [List.foldl_cons, push_of_not_entangle separated others.1,
        inductionHypothesis others.2, List.append_assoc, List.singleton_append]

/-- Entanglements in front stay there. -/
theorem separate_eq
    {entanglements others : List (Command R)}
    (entangle : ∀ command ∈ entanglements, command.isEntangle = true)
    (noEntangle : ∀ command ∈ others, command.isEntangle = false) :
    separate (entanglements ++ others) =
      { entanglements := entanglements, others := others } := by
  rw [separate, List.foldl_append, foldl_push_of_isEntangle entangle,
    foldl_push_of_not_isEntangle noEntangle, List.nil_append, List.nil_append]

/-- Corrections become pending, the latest one first. -/
theorem settleFrom_append_of_isCorrection
    {corrections : List (Command R)}
    (isCorrection : ∀ command ∈ corrections, command.isCorrection = true)
    (pending rest : List (Command R)) :
    settleFrom pending (corrections ++ rest) =
      settleFrom (corrections.reverse ++ pending) rest := by
  induction corrections generalizing pending with
  | nil => rfl
  | cons command later inductionHypothesis =>
      rw [List.forall_mem_cons] at isCorrection
      rw [List.cons_append, settleFrom_correction pending isCorrection.1,
        inductionHypothesis isCorrection.2, List.reverse_cons, List.append_assoc,
        List.singleton_append]

/-- Corrections that no measurement follows stay if they are effective. -/
theorem settleFrom_of_isCorrection
    {commands : List (Command R)}
    (corrections : ∀ command ∈ commands, command.isCorrection = true)
    (pending : List (Command R)) :
    settleFrom pending commands =
      (pending.reverse ++ commands).filter isEffective := by
  have settled := settleFrom_append_of_isCorrection corrections pending []
  rw [List.append_nil] at settled
  rw [settled, settleFrom, ← List.filter_reverse, List.reverse_append, List.reverse_reverse]

/-- Measurements without pending corrections stay as they are. -/
theorem settle_measures_append
    {measures : List (Command R)}
    (measure : ∀ command ∈ measures, command.isMeasure = true)
    (rest : List (Command R)) :
    settle (measures ++ rest) = measures ++ settle rest := by
  induction measures with
  | nil => rfl
  | cons command others inductionHypothesis =>
      rw [List.forall_mem_cons] at measure
      have later := inductionHypothesis measure.2
      cases command with
      | measure qubit angle s t => exact congrArg (Command.measure qubit angle s t :: ·) later
      | entangle first second => cases measure.1
      | correctX qubit signals => cases measure.1
      | correctZ qubit signals => cases measure.1

/-- The standard form of commands in standard form drops the corrections that are not
effective, and nothing else. -/
theorem Sections.ofCommands_eq
    {commands entanglements measures corrections : List (Command R)}
    (sections : Sections commands entanglements measures corrections) :
    ofCommands commands =
      entanglements ++ measures ++ corrections.filter isEffective := by
  have separated := separate_eq sections.isEntangle sections.isEntangle_eq_false
  rw [sections.commands_eq, List.append_assoc, ofCommands, separated]
  change entanglements ++ settle (measures ++ corrections) = _
  rw [settle_measures_append sections.isMeasure, settle,
    settleFrom_of_isCorrection sections.isCorrection, List.reverse_nil, List.nil_append,
    List.append_assoc]

/-- The commands that do not change are those in standard form whose corrections are
effective. -/
theorem ofCommands_eq_self_iff
    {commands : List (Command R)} :
    ofCommands commands = commands ↔
      isStandard commands = true ∧
        ∀ command ∈ commands, command.isCorrection = true → isEffective command = true := by
  constructor
  · intro same
    -- What does not change has the sections of a standard form.
    obtain ⟨measures, corrections, sections, effective⟩ :=
      exists_sections_ofCommands commands
    rw [same] at sections
    exact ⟨isStandard_iff.2 ⟨_, _, _, sections⟩, fun command member correction =>
      effective command (sections.mem_corrections member correction)⟩
  · rintro ⟨standard, effective⟩
    obtain ⟨entanglements, measures, corrections, sections⟩ := isStandard_iff.1 standard
    have kept : ∀ command ∈ corrections, isEffective command = true := by
      intro command member
      refine effective command ?_ (sections.isCorrection command member)
      rw [sections.commands_eq]
      exact List.mem_append_right _ member
    rw [sections.ofCommands_eq, List.filter_eq_self.2 kept, sections.commands_eq]

theorem ofCommands_ofCommands (commands : List (Command R)) :
    ofCommands (ofCommands commands) = ofCommands commands := by
  obtain ⟨measures, corrections, sections, effective⟩ := exists_sections_ofCommands commands
  rw [sections.ofCommands_eq, List.filter_eq_self.2 effective, sections.commands_eq]

/-- A correction is effective unless its signals cancel. -/
theorem isEffective_iff (command : Command R) :
    isEffective command = true ↔ Signals.merge command.signals [] ≠ [] := by
  rw [isEffective, Signals.cancels]
  simp [Signals.merge]

end StandardForm

namespace Pattern

open StandardForm

variable {R : Type}

/-- Standardizing succeeds on well-formed patterns and rewrites their commands. -/
theorem standardize_eq_ok_iff
    {pattern standard : Pattern R} :
    pattern.standardize = .ok standard ↔
      (∃ width, pattern.check = .ok width) ∧
        { pattern with commands := ofCommands pattern.commands } = standard := by
  rw [standardize]
  cases pattern.check with
  | error violations => simp
  | ok width => simp

/-- Standardizing leaves a pattern as it is exactly if the pattern is
well-formed, in standard form, and without corrections whose signals cancel.
Whatever standardizing returns is left as it is. -/
theorem standardize_fixed_points :
    (∀ pattern : Pattern R,
      (pattern.isStandard = true ↔
        ∃ entanglements measures corrections,
          pattern.commands = entanglements ++ measures ++ corrections ∧
          (∀ command ∈ entanglements, command.isEntangle = true) ∧
          (∀ command ∈ measures, command.isMeasure = true) ∧
          ∀ command ∈ corrections, command.isCorrection = true) ∧
      (pattern.isStandard = true ↔
        pattern.commands.Pairwise fun earlier later => earlier.stage ≤ later.stage)) ∧
    (∀ pattern : Pattern R,
      pattern.standardize = .ok pattern ↔
        (∃ width, pattern.check = .ok width) ∧
        pattern.isStandard = true ∧
        ∀ command ∈ pattern.commands, command.isCorrection = true →
          Signals.merge command.signals [] ≠ []) ∧
    ∀ pattern standard : Pattern R,
      pattern.standardize = .ok standard → standard.standardize = .ok standard := by
  refine ⟨fun pattern => ?_, fun pattern => ?_, fun pattern standard standardized => ?_⟩
  · refine ⟨?_, isStandard_iff_pairwise⟩
    rw [isStandard, StandardForm.isStandard_iff]
    exact exists₃_congr fun entanglements measures corrections =>
      ⟨fun ⟨same, first, second, third⟩ => ⟨same, first, second, third⟩,
        fun ⟨same, first, second, third⟩ => ⟨same, first, second, third⟩⟩
  · simp only [standardize_eq_ok_iff, Pattern.ext_iff, true_and, ofCommands_eq_self_iff,
      isEffective_iff]
    rfl
  · obtain ⟨⟨width, accepted⟩, rfl⟩ := standardize_eq_ok_iff.1 standardized
    have lawful := ((pattern.check_eq_ok_iff width).1 accepted).ofCommands
    refine standardize_eq_ok_iff.2 ⟨⟨width, (check_eq_ok_iff _ _).2 lawful⟩, ?_⟩
    rw [ofCommands_ofCommands]

/-- A pattern in standard form with repeated signals that do not cancel as a whole, and
with signals and corrections out of order. -/
def untidy : Pattern Nat where
  preparations := [.input 0 .plus, .ancillas [1, 2]]
  commands :=
    [.entangle 1 0, .entangle 1 2, .measure 0 5 [] [], .measure 1 7 [0, 0] [0],
      .correctZ 2 [1, 0, 1], .correctX 2 [1, 0]]

theorem standardize_fixed_points_untidy :
    (∃ entanglements measures corrections,
      untidy.commands = entanglements ++ measures ++ corrections ∧
      (∀ command ∈ entanglements, command.isEntangle = true) ∧
      (∀ command ∈ measures, command.isMeasure = true) ∧
      ∀ command ∈ corrections, command.isCorrection = true) ∧
    untidy.standardize = .ok untidy ∧
    twoRotations.standardize ≠ .ok twoRotations ∧
    ∃ standard, twoRotations.standardize = .ok standard ∧
      standard.standardize = .ok standard := by
  obtain ⟨sections, fixed, twice⟩ := standardize_fixed_points (R := Nat)
  refine ⟨(sections untidy).1.1 (by decide), (fixed untidy).2 ⟨⟨3, by decide⟩, by decide,
    by decide⟩, fun same => ?_, _, rfl, twice twoRotations _ rfl⟩
  have standard := ((fixed twoRotations).1 same).2.1
  revert standard
  decide

end Pattern

end MeasurementCalculus
