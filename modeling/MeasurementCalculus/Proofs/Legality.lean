import MeasurementCalculus.Program
import Mathlib.Data.List.Sort

/-!
# Legal commands

The well-formedness check walks over the commands and collects breaches. This
module says what it means that there are none: every command acts on different
qubits of the register that are not measured yet, and reads only outcomes that
are recorded. The qubits measured so far are kept in the order in which a run
records them.
-/

namespace MeasurementCalculus

namespace Command

variable {R : Type}

theorem measured?_eq_none_or (command : Command R) :
    command.measured? = none ∨
      ∃ qubit angle s t, command = .measure qubit angle s t := by
  cases command with
  | measure qubit angle s t => exact .inr ⟨qubit, angle, s, t, rfl⟩
  | entangle first second => exact .inl rfl
  | correctX qubit signals => exact .inl rfl
  | correctZ qubit signals => exact .inl rfl

theorem isEntangle_eq_false_or (command : Command R) :
    command.isEntangle = false ∨
      ∃ first second, command = .entangle first second := by
  cases command with
  | entangle first second => exact .inr ⟨first, second, rfl⟩
  | measure qubit angle s t => exact .inl rfl
  | correctX qubit signals => exact .inl rfl
  | correctZ qubit signals => exact .inl rfl

theorem isCorrection_or (command : Command R) :
    command.isCorrection = true ∨
      (∃ first second, command = .entangle first second) ∨
      ∃ qubit angle s t, command = .measure qubit angle s t := by
  cases command with
  | entangle first second => exact .inr (.inl ⟨first, second, rfl⟩)
  | measure qubit angle s t => exact .inr (.inr ⟨qubit, angle, s, t, rfl⟩)
  | correctX qubit signals => exact .inl rfl
  | correctZ qubit signals => exact .inl rfl

/-- A command that may be executed on a register of `width` qubits when the
qubits in `measured` are the measured ones. -/
structure Legal
    (width : Nat)
    (measured : List Qubit)
    (command : Command R) : Prop where
  /-- Every target is a qubit of the register. -/
  target_lt : ∀ target ∈ command.targets, target < width
  /-- No target is measured. -/
  target_notMem : ∀ target ∈ command.targets, target ∉ measured
  /-- The targets are different. -/
  targets_nodup : command.targets.Nodup
  /-- Every signal is measured. -/
  signal_mem : ∀ signal ∈ command.signals, signal ∈ measured

/-- A legal command reads no signal of its own targets. -/
theorem Legal.ne_of_mem
    {width : Nat}
    {measured : List Qubit}
    {command : Command R}
    (legal : command.Legal width measured)
    {signal target : Qubit}
    (signalMember : signal ∈ command.signals)
    (targetMember : target ∈ command.targets) :
    signal ≠ target := by
  rintro rfl
  exact legal.target_notMem signal targetMember
    (legal.signal_mem signal signalMember)

section Entangle

variable {width : Nat} {measured : List Qubit} {first second : Qubit}

/-- The first qubit of a legal entanglement can be acted on. -/
theorem Legal.entangle_first
    (legal : (entangle first second : Command R).Legal width measured) :
    first < width ∧ first ∉ measured :=
  ⟨legal.target_lt first (by simp), legal.target_notMem first (by simp)⟩

/-- The second qubit of a legal entanglement can be acted on. -/
theorem Legal.entangle_second
    (legal : (entangle first second : Command R).Legal width measured) :
    second < width ∧ second ∉ measured :=
  ⟨legal.target_lt second (by simp), legal.target_notMem second (by simp)⟩

/-- A legal entanglement joins different qubits. -/
theorem Legal.entangle_ne
    (legal : (entangle first second : Command R).Legal width measured) :
    first ≠ second := by
  simpa using legal.targets_nodup

end Entangle

/-- The measured qubits after a command, in measurement order. -/
def measuredAfter
    (measured : List Qubit)
    (command : Command R) : List Qubit :=
  measured ++ command.measured?.toList

@[simp] theorem measuredAfter_measure
    (measured : List Qubit)
    (qubit : Qubit)
    (angle : R)
    (s t : Signals) :
    measuredAfter measured (measure qubit angle s t) = measured ++ [qubit] := rfl

theorem measuredAfter_of_none
    {command : Command R}
    (noMeasure : command.measured? = none)
    (measured : List Qubit) :
    command.measuredAfter measured = measured := by
  rw [measuredAfter, noMeasure, Option.toList_none, List.append_nil]

/-- Commands each of which is legal when the earlier ones have been executed. -/
def AllLegal
    (width : Nat) : List Qubit → List (Command R) → Prop
  | _, [] => True
  | measured, command :: rest =>
      command.Legal width measured ∧
        AllLegal width (command.measuredAfter measured) rest

@[simp] theorem allLegal_nil
    (width : Nat)
    (measured : List Qubit) :
    AllLegal width measured ([] : List (Command R)) := trivial

@[simp] theorem allLegal_cons
    (width : Nat)
    (measured : List Qubit)
    (command : Command R)
    (rest : List (Command R)) :
    AllLegal width measured (command :: rest) ↔
      command.Legal width measured ∧
        AllLegal width (command.measuredAfter measured) rest := Iff.rfl

/-- The qubits that some commands measure, in measurement order. -/
def measuredBy (commands : List (Command R)) : List Qubit :=
  commands.filterMap measured?

@[simp] theorem measuredBy_nil :
    measuredBy ([] : List (Command R)) = [] := rfl

@[simp] theorem measuredBy_cons
    (command : Command R)
    (rest : List (Command R)) :
    measuredBy (command :: rest) =
      command.measured?.toList ++ measuredBy rest := by
  unfold measuredBy
  cases measured : command.measured? with
  | none => simp [measured]
  | some qubit => simp [measured]

@[simp] theorem measuredBy_append (first second : List (Command R)) :
    measuredBy (first ++ second) = measuredBy first ++ measuredBy second :=
  List.filterMap_append

/-- A command that is not a measurement adds no measured qubit. -/
theorem measuredBy_append_of_none
    (before : List (Command R))
    {command : Command R}
    (noMeasure : command.measured? = none) :
    measuredBy (before ++ [command]) = measuredBy before := by
  simp [noMeasure]

/-- A measurement adds its qubit. -/
theorem measuredBy_append_measure
    (before : List (Command R))
    (qubit : Qubit)
    (angle : R)
    (s t : Signals) :
    measuredBy (before ++ [.measure qubit angle s t]) =
      measuredBy before ++ [qubit] := by
  simp [measured?]

/-- The qubit that a command measures and the angle that it turns by signals, if the
command is a measurement. -/
def reading? : Command R → Option (Qubit × R)
  | .measure qubit angle _ _ => some (qubit, angle)
  | _ => none

/-- The qubits that some commands measure with their angles, in measurement order. -/
def readings (commands : List (Command R)) : List (Qubit × R) :=
  commands.filterMap reading?

theorem readings_cons
    (command : Command R)
    (rest : List (Command R)) :
    readings (command :: rest) = command.reading?.toList ++ readings rest := by
  unfold readings
  cases read : command.reading? with
  | none => simp [read]
  | some reading => simp [read]

theorem readings_append (first second : List (Command R)) :
    readings (first ++ second) = readings first ++ readings second :=
  List.filterMap_append

theorem measured?_eq_map_reading? (command : Command R) :
    command.measured? = command.reading?.map Prod.fst := by
  cases command with
  | measure qubit angle s t => rfl
  | entangle first second => rfl
  | correctX qubit signals => rfl
  | correctZ qubit signals => rfl

theorem measuredBy_eq_map_readings (commands : List (Command R)) :
    measuredBy commands = (readings commands).map Prod.fst := by
  rw [measuredBy, readings, List.map_filterMap, funext measured?_eq_map_reading?]

/-- Commands that follow others are legal with the qubits that those measure. -/
theorem allLegal_append
    (width : Nat)
    (measured : List Qubit)
    (first second : List (Command R)) :
    AllLegal width measured (first ++ second) ↔
      AllLegal width measured first ∧
        AllLegal width (measured ++ measuredBy first) second := by
  induction first generalizing measured with
  | nil => simp
  | cons command rest inductionHypothesis =>
      simp [inductionHypothesis, measuredAfter, and_assoc]

theorem AllLegal.take
    {width : Nat}
    {measured : List Qubit}
    {commands : List (Command R)}
    (legal : AllLegal width measured commands)
    (index : Nat) :
    AllLegal width measured (commands.take index) := by
  rw [← List.take_append_drop index commands, allLegal_append] at legal
  exact legal.1

/-- The command at a position is legal when the earlier ones are executed. -/
theorem AllLegal.getElem
    {width : Nat}
    {measured : List Qubit}
    {commands : List (Command R)}
    (legal : AllLegal width measured commands)
    {index : Nat}
    {command : Command R}
    (there : commands[index]? = some command) :
    command.Legal width (measured ++ measuredBy (commands.take index)) := by
  obtain ⟨bound, value⟩ := List.getElem?_eq_some_iff.1 there
  rw [← List.take_append_drop index commands, allLegal_append,
    List.drop_eq_getElem_cons bound, value] at legal
  exact legal.2.1

/-- Legal commands act on qubits of the register, and on none that is measured at the
start. -/
theorem AllLegal.target
    {width : Nat}
    {measured : List Qubit}
    {commands : List (Command R)}
    (legal : AllLegal width measured commands)
    {command : Command R}
    (member : command ∈ commands)
    {target : Qubit}
    (targetMember : target ∈ command.targets) :
    target < width ∧ target ∉ measured := by
  induction commands generalizing measured with
  | nil => cases member
  | cons head rest inductionHypothesis =>
      obtain ⟨legalHead, legalRest⟩ := legal
      rcases List.mem_cons.1 member with rfl | later
      · exact ⟨legalHead.target_lt target targetMember,
          legalHead.target_notMem target targetMember⟩
      · obtain ⟨below, fresh⟩ := inductionHypothesis legalRest later
        exact ⟨below, fun inside => fresh (List.mem_append_left _ inside)⟩

/-- Commands stay legal if fewer qubits are measured at the start, as long as their
signals are. -/
theorem AllLegal.of_subset
    {width : Nat}
    {measured fewer : List Qubit}
    (subset : ∀ qubit ∈ fewer, qubit ∈ measured)
    {commands : List (Command R)}
    (signals : ∀ command ∈ commands, ∀ signal ∈ command.signals,
      signal ∈ measured → signal ∈ fewer)
    (legal : AllLegal width measured commands) :
    AllLegal width fewer commands := by
  induction commands generalizing measured fewer with
  | nil => trivial
  | cons head rest inductionHypothesis =>
      obtain ⟨legalHead, legalRest⟩ := legal
      obtain ⟨here, later⟩ := List.forall_mem_cons.1 signals
      refine ⟨⟨legalHead.target_lt, fun target member inside =>
          legalHead.target_notMem target member (subset target inside),
        legalHead.targets_nodup, fun signal member =>
          here signal member (legalHead.signal_mem signal member)⟩,
        inductionHypothesis ?_ ?_ legalRest⟩
      · intro qubit inside
        exact List.mem_append.2 ((List.mem_append.1 inside).imp_left (subset qubit))
      · intro command member signal inside there
        exact List.mem_append.2 ((List.mem_append.1 there).imp_left
          (later command member signal inside))

/-- Commands that measure nothing are legal one after another exactly if each of them is
legal at the start. -/
theorem allLegal_iff_forall
    {width : Nat}
    {measured : List Qubit}
    {commands : List (Command R)}
    (noMeasure : measuredBy commands = []) :
    AllLegal width measured commands ↔
      ∀ command ∈ commands, command.Legal width measured := by
  induction commands with
  | nil => simp
  | cons head rest inductionHypothesis =>
      rw [measuredBy_cons, List.append_eq_nil_iff] at noMeasure
      rw [allLegal_cons, measuredAfter_of_none (Option.toList_eq_nil_iff.1 noMeasure.1),
        inductionHypothesis noMeasure.2, List.forall_mem_cons]

/-- Commands stay legal if some of them are exchanged for legal ones that measure the
same qubits. -/
theorem AllLegal.exchange
    {width : Nat}
    {measured : List Qubit}
    {before old new rest : List (Command R)}
    (legal : AllLegal width measured (before ++ (old ++ rest)))
    (legalNew : AllLegal width (measured ++ measuredBy before) new)
    (same : measuredBy new = measuredBy old) :
    AllLegal width measured (before ++ (new ++ rest)) := by
  rw [allLegal_append, allLegal_append] at legal ⊢
  rw [same]
  exact ⟨legal.1, legalNew, legal.2.2⟩

/-- Legal commands measure no qubit twice, and none that is already measured. -/
theorem AllLegal.nodup_measured
    {width : Nat}
    {measured : List Qubit}
    {commands : List (Command R)}
    (legal : AllLegal width measured commands)
    (nodup : measured.Nodup) :
    (measured ++ measuredBy commands).Nodup := by
  induction commands generalizing measured with
  | nil => simpa using nodup
  | cons command rest inductionHypothesis =>
      obtain ⟨head, tail⟩ := legal
      have extended : (command.measuredAfter measured).Nodup := by
        cases command with
        | measure qubit angle s t =>
            have fresh := head.target_notMem qubit (by simp)
            rw [measuredAfter_measure, List.nodup_append]
            refine ⟨nodup, by simp, ?_⟩
            intro other member last single same
            rw [same, List.mem_singleton.1 single] at member
            exact fresh member
        | entangle first second =>
            simpa [measuredAfter, measured?] using nodup
        | correctX qubit signals =>
            simpa [measuredAfter, measured?] using nodup
        | correctZ qubit signals =>
            simpa [measuredAfter, measured?] using nodup
      simpa [measuredAfter, List.append_assoc] using
        inductionHypothesis tail extended

theorem AllLegal.nodup_measuredBy
    {width : Nat}
    {commands : List (Command R)}
    (legal : AllLegal width [] commands) :
    (measuredBy commands).Nodup :=
  legal.nodup_measured List.nodup_nil

/-- Every qubit that legal commands measure is a qubit of the register. -/
theorem AllLegal.measured_lt
    {width : Nat}
    {measured : List Qubit}
    {commands : List (Command R)}
    (legal : AllLegal width measured commands)
    {qubit : Qubit}
    (member : qubit ∈ measuredBy commands) :
    qubit < width := by
  induction commands generalizing measured with
  | nil => simp at member
  | cons command rest inductionHypothesis =>
      obtain ⟨head, tail⟩ := legal
      rw [measuredBy_cons, List.mem_append] at member
      rcases member with first | later
      · cases command with
        | measure target angle s t =>
            have same : qubit = target := by simpa [measured?] using first
            exact head.target_lt qubit (by simp [same])
        | entangle _ _ => simp [measured?] at first
        | correctX _ _ => simp [measured?] at first
        | correctZ _ _ => simp [measured?] at first
      · exact inductionHypothesis tail later

end Command

namespace WellFormed

variable {R : Type}

/-- No qubit is reported as repeated exactly if the qubits are different from
each other and from the ones seen before. -/
theorem repeated_eq_nil_iff
    (seen : QubitSet)
    (qubits : List Qubit) :
    repeated seen qubits = [] ↔
      qubits.Nodup ∧ ∀ qubit ∈ qubits, qubit ∉ seen := by
  induction qubits generalizing seen with
  | nil => simp [repeated]
  | cons qubit rest inductionHypothesis =>
      rw [repeated]
      split
      · next present =>
          have member : qubit ∈ seen := Std.TreeSet.mem_iff_contains.2 present
          simp [member]
      · next absent =>
          have fresh : qubit ∉ seen := fun member =>
            absent (Std.TreeSet.mem_iff_contains.1 member)
          rw [inductionHypothesis, List.nodup_cons]
          simp only [Std.TreeSet.mem_insert, List.mem_cons, not_or,
            forall_eq_or_imp]
          constructor
          · rintro ⟨nodup, apart⟩
            have notLater : qubit ∉ rest := fun later =>
              (apart qubit later).1 (Nat.compare_eq_eq.2 rfl)
            exact ⟨⟨notLater, nodup⟩, fresh,
              fun other later => (apart other later).2⟩
          · rintro ⟨⟨notLater, nodup⟩, _, apart⟩
            refine ⟨nodup, fun other later => ⟨?_, apart other later⟩⟩
            intro same
            exact notLater (Nat.compare_eq_eq.1 same ▸ later)

@[simp] theorem targetViolations_eq_nil_iff
    (prepared measured : QubitSet)
    (index : Nat)
    (command : Command R)
    (target : Qubit) :
    targetViolations prepared measured index command target = [] ↔
      target ∈ prepared ∧ target ∉ measured := by
  unfold targetViolations
  simp [Std.TreeSet.contains_iff_mem]

@[simp] theorem signalViolations_eq_nil_iff
    (measured : QubitSet)
    (index : Nat)
    (command : Command R)
    (signal : Qubit) :
    signalViolations measured index command signal = [] ↔ signal ∈ measured := by
  unfold signalViolations
  simp [Std.TreeSet.contains_iff_mem]

@[simp] theorem pairViolations_eq_nil_iff
    (index : Nat)
    (command : Command R) :
    pairViolations index command = [] ↔ command.targets.Nodup := by
  cases command with
  | entangle first second => simp [pairViolations]
  | measure qubit angle s t => simp [pairViolations]
  | correctX qubit signals => simp [pairViolations]
  | correctZ qubit signals => simp [pairViolations]

/-- A command without a breach is a legal command. -/
theorem commandViolations_eq_nil_iff
    {prepared measuredSet : QubitSet}
    {width : Nat}
    {measured : List Qubit}
    (preparedBelow : ∀ qubit, qubit ∈ prepared ↔ qubit < width)
    (sameMeasured : ∀ qubit, qubit ∈ measuredSet ↔ qubit ∈ measured)
    (index : Nat)
    (command : Command R) :
    commandViolations prepared measuredSet index command = [] ↔
      command.Legal width measured := by
  simp only [commandViolations, List.append_eq_nil_iff,
    pairViolations_eq_nil_iff, List.flatMap_eq_nil_iff,
    targetViolations_eq_nil_iff, signalViolations_eq_nil_iff, preparedBelow,
    sameMeasured]
  constructor
  · rintro ⟨⟨distinct, targets⟩, signals⟩
    exact
      { target_lt := fun target member => (targets target member).1
        target_notMem := fun target member => (targets target member).2
        targets_nodup := distinct
        signal_mem := signals }
  · intro legal
    exact ⟨⟨legal.targets_nodup, fun target member =>
      ⟨legal.target_lt target member, legal.target_notMem target member⟩⟩,
      legal.signal_mem⟩

theorem mem_recordMeasured
    {measuredSet : QubitSet}
    {measured : List Qubit}
    (sameMeasured : ∀ qubit, qubit ∈ measuredSet ↔ qubit ∈ measured)
    (command : Command R)
    (qubit : Qubit) :
    qubit ∈ recordMeasured measuredSet command ↔
      qubit ∈ command.measuredAfter measured := by
  unfold recordMeasured Command.measuredAfter
  cases command.measured? with
  | none => simp [sameMeasured]
  | some target =>
      simp only [Std.TreeSet.mem_insert, sameMeasured, Nat.compare_eq_eq,
        Option.toList_some, List.mem_append, List.mem_singleton]
      rw [or_comm, eq_comm]

/-- The walk finds no breach exactly if the commands are legal one after
another. -/
theorem walk_eq_nil_iff
    {prepared measuredSet : QubitSet}
    {width : Nat}
    {measured : List Qubit}
    (preparedBelow : ∀ qubit, qubit ∈ prepared ↔ qubit < width)
    (sameMeasured : ∀ qubit, qubit ∈ measuredSet ↔ qubit ∈ measured)
    (index : Nat)
    (commands : List (Command R)) :
    walk prepared measuredSet index commands = [] ↔
      Command.AllLegal width measured commands := by
  induction commands generalizing measuredSet measured index with
  | nil => simp
  | cons command rest inductionHypothesis =>
      rw [walk_cons, List.append_eq_nil_iff, Command.allLegal_cons,
        commandViolations_eq_nil_iff preparedBelow sameMeasured,
        inductionHypothesis (mem_recordMeasured sameMeasured command)]

end WellFormed

/-- The qubits below a width, in ascending order. -/
theorem Qubit.ascending_eq_range
    {qubits : List Qubit}
    {width : Nat}
    (members : ∀ qubit, qubit ∈ qubits ↔ qubit < width) :
    ascending qubits = List.range width := by
  refine (pairwise_ascending _).sortedLT.eq_of_mem_iff
    List.pairwise_lt_range.sortedLT fun qubit => ?_
  rw [mem_ascending, members, List.mem_range]

namespace Pattern

variable {R : Type}

/-- A pattern that declares every qubit below the width once and whose commands
are legal one after another. -/
structure Lawful
    (width : Nat)
    (pattern : Pattern R) : Prop where
  /-- No qubit is declared twice. -/
  declared_nodup : (pattern.declared.map Prod.fst).Nodup
  /-- The declared qubits are the numbers below the width. -/
  prepared_eq : pattern.prepared = List.range width
  /-- The commands are legal one after another. -/
  legal : Command.AllLegal width [] pattern.commands

theorem mem_prepared
    {pattern : Pattern R}
    {qubit : Qubit} :
    qubit ∈ pattern.prepared ↔ qubit ∈ pattern.declared.map Prod.fst :=
  Qubit.mem_ascending

theorem mem_outputs
    {pattern : Pattern R}
    {qubit : Qubit} :
    qubit ∈ pattern.outputs ↔
      qubit ∈ pattern.prepared ∧ qubit ∉ pattern.measured := by
  simp [outputs]

/-- A qubit is declared exactly if it lies below the width. -/
theorem Lawful.mem_declared_iff
    {width : Nat}
    {pattern : Pattern R}
    (lawful : pattern.Lawful width)
    (qubit : Qubit) :
    qubit ∈ pattern.declared.map Prod.fst ↔ qubit < width := by
  rw [← mem_prepared, lawful.prepared_eq, List.mem_range]

/-- The width of a lawful pattern depends on its preparations alone. -/
theorem Lawful.width_eq
    {width other : Nat}
    {first second : Pattern R}
    (lawful : first.Lawful width)
    (otherLawful : second.Lawful other)
    (same : first.prepared = second.prepared) :
    width = other := by
  have ranges := congrArg List.length
    (lawful.prepared_eq.symm.trans (same.trans otherLawful.prepared_eq))
  rwa [List.length_range, List.length_range] at ranges

/-- A measured qubit is a qubit of the register, and it is measured once. -/
theorem Lawful.nodup_measuredBy
    {width : Nat}
    {pattern : Pattern R}
    (lawful : pattern.Lawful width) :
    (Command.measuredBy pattern.commands).Nodup :=
  lawful.legal.nodup_measuredBy

/-- Every qubit is either measured or an output. -/
theorem Lawful.length_measured_add_outputs
    {width : Nat}
    {pattern : Pattern R}
    (lawful : pattern.Lawful width) :
    pattern.measured.length + pattern.outputs.length = width := by
  have disjoint : (pattern.measured ++ pattern.outputs).Nodup := by
    refine List.nodup_append'.2 ⟨lawful.nodup_measuredBy, ?_, fun qubit measured output =>
      (mem_outputs.1 output).2 measured⟩
    unfold outputs
    rw [lawful.prepared_eq]
    exact List.nodup_range.filter _
  have all : (pattern.measured ++ pattern.outputs).Perm (List.range width) := by
    refine (List.perm_ext_iff_of_nodup disjoint List.nodup_range).2 fun qubit => ?_
    rw [List.mem_append, mem_outputs, lawful.prepared_eq]
    by_cases measured : qubit ∈ pattern.measured
    · simp [measured, lawful.legal.measured_lt measured]
    · simp [measured]
  rw [← List.length_append, all.length_eq, List.length_range]

theorem gapViolations_eq_nil_iff (prepared : List Qubit) :
    (WellFormed.gapViolations prepared : List (Violation R)) = [] ↔
      prepared = List.range prepared.length := by
  unfold WellFormed.gapViolations
  split
  · next contiguous => simpa using contiguous
  · next gap => simpa using gap

/-- A pattern without violations is lawful for the number of its prepared
qubits. -/
theorem violations_eq_nil_iff (pattern : Pattern R) :
    pattern.violations = [] ↔ pattern.Lawful pattern.prepared.length := by
  simp only [violations, List.append_eq_nil_iff, List.map_eq_nil_iff,
    WellFormed.repeated_eq_nil_iff, gapViolations_eq_nil_iff]
  have walkLegal
      (contiguous : pattern.prepared = List.range pattern.prepared.length) :
      WellFormed.walk (Std.TreeSet.ofList pattern.prepared) ∅ 0
          pattern.commands = [] ↔
        Command.AllLegal pattern.prepared.length [] pattern.commands := by
    apply WellFormed.walk_eq_nil_iff
    · intro qubit
      rw [Std.TreeSet.mem_ofList, List.contains_iff_mem, ← List.mem_range,
        ← contiguous]
    · intro qubit
      simp
  constructor
  · rintro ⟨⟨⟨nodup, _⟩, walk⟩, contiguous⟩
    exact ⟨nodup, contiguous, (walkLegal contiguous).1 walk⟩
  · rintro ⟨nodup, contiguous, legal⟩
    exact ⟨⟨⟨nodup, by simp⟩, (walkLegal contiguous).2 legal⟩, contiguous⟩

/-- The check accepts a pattern with a width exactly if the pattern is lawful for
that width. -/
theorem check_eq_ok_iff
    (pattern : Pattern R)
    (width : Nat) :
    pattern.check = .ok width ↔ pattern.Lawful width := by
  have empty := violations_eq_nil_iff pattern
  unfold check
  constructor
  · intro accepted
    split at accepted
    · next none =>
        cases accepted
        exact empty.1 none
    · cases accepted
  · intro lawful
    have length : pattern.prepared.length = width := by
      rw [lawful.prepared_eq, List.length_range]
    rw [length] at empty
    rw [empty.2 lawful, length]

/-- The check rejects a pattern exactly if it has violations, and reports them. -/
theorem check_eq_error_iff
    (pattern : Pattern R)
    (breaches : List (Violation R)) :
    pattern.check = .error breaches ↔
      pattern.violations = breaches ∧ breaches ≠ [] := by
  rw [check]
  split
  · next none =>
      rw [none]
      constructor
      · intro accepted
        cases accepted
      · rintro ⟨same, nonempty⟩
        exact absurd same.symm nonempty
  · next nonempty =>
      constructor
      · intro rejected
        obtain rfl := Except.error.inj rejected
        exact ⟨rfl, nonempty⟩
      · rintro ⟨same, _⟩
        exact congrArg Except.error same

end Pattern

namespace Program

variable {R : Type}

/-- The pattern of a program is lawful for its width. -/
theorem lawful (program : Program R) : program.pattern.Lawful program.width :=
  (program.pattern.check_eq_ok_iff program.width).1 program.accepted

/-- The commands before a position are legal one after another. -/
theorem allLegal_take
    (program : Program R)
    (index : Nat) :
    Command.AllLegal program.width [] (program.pattern.commands.take index) :=
  program.lawful.legal.take index

theorem legal_getElem
    (program : Program R)
    {index : Nat}
    {command : Command R}
    (there : program.pattern.commands[index]? = some command) :
    command.Legal program.width
      (Command.measuredBy (program.pattern.commands.take index)) :=
  program.lawful.legal.getElem there

end Program

end MeasurementCalculus
