import MeasurementCalculus.Proofs.Legality
import Mathlib.Data.Finset.Sort
import Mathlib.Order.Lattice.Nat

/-!
# The breaches of a pattern

The well-formedness check is one walk that carries search trees. What it is
meant to report can be said without a walk: a breach is a relation between one
place of the pattern and the places before it. This module shows that the
check reports the breaches that are described in this way, in program order
and each of them once.
-/

namespace MeasurementCalculus

namespace Command

variable {R : Type}

theorem measured?_eq_some_iff
    {command : Command R}
    {qubit : Qubit} :
    command.measured? = some qubit ↔
      ∃ angle s t, command = .measure qubit angle s t := by
  cases command with
  | measure target angle s t => simp [measured?]
  | entangle first second => simp [measured?]
  | correctX target signals => simp [measured?]
  | correctZ target signals => simp [measured?]

end Command

namespace Pattern

variable {R : Type}

/-! ## Places of a pattern -/

/-- The set of all declared qubits. -/
def declaredQubits (pattern : Pattern R) : Finset Qubit :=
  (pattern.declared.map Prod.fst).toFinset

/-- A declaration before the given place is one of the qubit. -/
def DeclaresBefore
    (pattern : Pattern R)
    (place : Nat)
    (qubit : Qubit) : Prop :=
  ∃ earlier < place, ∃ ket, pattern.declared[earlier]? = some (qubit, ket)

/-- A command before the given position measures the qubit. -/
def MeasuresBefore
    (pattern : Pattern R)
    (index : Nat)
    (qubit : Qubit) : Prop :=
  ∃ earlier < index, ∃ angle s t,
    pattern.commands[earlier]? = some (.measure qubit angle s t)

theorem mem_take_iff
    {α : Type}
    {member : α}
    {count : Nat}
    {members : List α} :
    member ∈ members.take count ↔
      ∃ place < count, members[place]? = some member := by
  simp [List.mem_iff_getElem?, List.getElem?_take]

theorem mem_declaredQubits
    {pattern : Pattern R}
    {qubit : Qubit} :
    qubit ∈ pattern.declaredQubits ↔ qubit ∈ pattern.declared.map Prod.fst :=
  List.mem_toFinset

theorem mem_take_declared_iff
    {pattern : Pattern R}
    {place : Nat}
    {qubit : Qubit} :
    qubit ∈ (pattern.declared.map Prod.fst).take place ↔
      pattern.DeclaresBefore place qubit := by
  simp [DeclaresBefore, mem_take_iff]

theorem mem_measuredBy_take_iff
    {pattern : Pattern R}
    {index : Nat}
    {qubit : Qubit} :
    qubit ∈ Command.measuredBy (pattern.commands.take index) ↔
      pattern.MeasuresBefore index qubit := by
  simp only [MeasuresBefore, Command.measuredBy, List.mem_filterMap, mem_take_iff,
    Command.measured?_eq_some_iff]
  constructor
  · rintro ⟨command, ⟨earlier, before, there⟩, angle, s, t, rfl⟩
    exact ⟨earlier, before, angle, s, t, there⟩
  · rintro ⟨earlier, before, angle, s, t, there⟩
    exact ⟨_, ⟨earlier, before, there⟩, angle, s, t, rfl⟩

instance
    (pattern : Pattern R)
    (place : Nat)
    (qubit : Qubit) : Decidable (pattern.DeclaresBefore place qubit) :=
  decidable_of_iff _ mem_take_declared_iff

instance
    (pattern : Pattern R)
    (index : Nat)
    (qubit : Qubit) : Decidable (pattern.MeasuresBefore index qubit) :=
  decidable_of_iff _ mem_measuredBy_take_iff

/-! ## What is to be reported -/

/-- A declaration is in breach if it repeats an earlier one. -/
def declarationBreaches
    (pattern : Pattern R)
    (place : Nat)
    (qubit : Qubit) : List (Violation R) :=
  if pattern.DeclaresBefore place qubit then [.repeatedPreparation qubit] else []

/-- A command is in breach if it entangles a qubit with itself, for each occurrence
of a target that is not declared or was measured before, and for each occurrence of
a signal that was not measured before. -/
def commandBreaches
    (pattern : Pattern R)
    (index : Nat)
    (command : Command R) : List (Violation R) :=
  (match command with
    | .entangle first second =>
        if first = second then [.selfEntanglement index command first] else []
    | _ => []) ++
  (command.targets.flatMap fun target =>
    (if target ∈ pattern.declaredQubits then []
      else [.unpreparedTarget index command target]) ++
    (if pattern.MeasuresBefore index target then
        [.measuredTarget index command target]
      else [])) ++
  command.signals.flatMap fun signal =>
    if pattern.MeasuresBefore index signal then []
    else [.unmeasuredSignal index command signal]

/-- The numbers below the largest declared qubit that no declaration mentions, in
ascending order. -/
def gaps (pattern : Pattern R) : List Qubit :=
  (List.range (pattern.declaredQubits.sup id)).filter fun qubit =>
    qubit ∉ pattern.declaredQubits

/-- The numbering is in breach if the declared qubits are not the numbers below
their count. -/
def numberingBreaches (pattern : Pattern R) : List (Violation R) :=
  if pattern.declaredQubits = Finset.range pattern.declaredQubits.card then []
  else [.gap pattern.declaredQubits.card pattern.gaps]

/-- Every breach of a pattern: those of its declarations, then those of its commands,
both by their places, and then that of the numbering. -/
def breaches (pattern : Pattern R) : List (Violation R) :=
  (pattern.declared.zipIdx.flatMap fun ((qubit, _), place) =>
    pattern.declarationBreaches place qubit) ++
  (pattern.commands.zipIdx.flatMap fun (command, index) =>
    pattern.commandBreaches index command) ++
  pattern.numberingBreaches

/-! ## The walk finds the breaches -/

/-- The repeated qubits of a list are those that occur before their place. -/
theorem map_repeated_eq_flatMap
    {seen : QubitSet}
    {earlier : List Qubit}
    (sameSeen : ∀ qubit, qubit ∈ seen ↔ qubit ∈ earlier)
    (qubits : List Qubit) :
    (WellFormed.repeated seen qubits).map Violation.repeatedPreparation =
      (qubits.zipIdx earlier.length).flatMap fun entry =>
        if entry.1 ∈ (earlier ++ qubits).take entry.2 then
          [(.repeatedPreparation entry.1 : Violation R)]
        else [] := by
  induction qubits generalizing seen earlier with
  | nil => rfl
  | cons qubit rest inductionHypothesis =>
      have split : earlier ++ qubit :: rest = earlier ++ [qubit] ++ rest := by
        simp
      have here : (earlier ++ qubit :: rest).take earlier.length = earlier :=
        List.take_left
      rw [WellFormed.repeated, List.zipIdx_cons, List.flatMap_cons]
      dsimp only
      rw [here, split]
      by_cases member : qubit ∈ earlier
      · have present : seen.contains qubit = true :=
          Std.TreeSet.contains_iff_mem.2 ((sameSeen qubit).2 member)
        have sameNext (other : Qubit) :
            other ∈ seen ↔ other ∈ earlier ++ [qubit] := by
          rw [sameSeen, List.mem_append, List.mem_singleton]
          exact (or_iff_left_of_imp fun same => same ▸ member).symm
        rw [if_pos present, if_pos member, List.map_cons,
          inductionHypothesis sameNext, List.length_append]
        rfl
      · have absent : ¬seen.contains qubit = true := fun present =>
          member ((sameSeen qubit).1 (Std.TreeSet.contains_iff_mem.1 present))
        have sameNext (other : Qubit) :
            other ∈ seen.insert qubit ↔ other ∈ earlier ++ [qubit] := by
          rw [Std.TreeSet.mem_insert, Nat.compare_eq_eq, sameSeen,
            List.mem_append, List.mem_singleton, or_comm, eq_comm]
        rw [if_neg absent, if_neg member, inductionHypothesis sameNext,
          List.length_append]
        rfl

/-- A command is reported for its breaches. -/
theorem commandViolations_eq_commandBreaches
    {pattern : Pattern R}
    {index : Nat}
    {prepared measured : QubitSet}
    (samePrepared : ∀ qubit, qubit ∈ prepared ↔ qubit ∈ pattern.declaredQubits)
    (sameMeasured : ∀ qubit, qubit ∈ measured ↔ pattern.MeasuresBefore index qubit)
    (command : Command R) :
    WellFormed.commandViolations prepared measured index command =
      pattern.commandBreaches index command := by
  have preparedTest (qubit : Qubit) :
      prepared.contains qubit = decide (qubit ∈ pattern.declaredQubits) := by
    rw [Bool.eq_iff_iff, decide_eq_true_iff, ← samePrepared,
      Std.TreeSet.contains_iff_mem]
  have measuredTest (qubit : Qubit) :
      measured.contains qubit = decide (pattern.MeasuresBefore index qubit) := by
    rw [Bool.eq_iff_iff, decide_eq_true_iff, ← sameMeasured,
      Std.TreeSet.contains_iff_mem]
  have sameTargets : WellFormed.targetViolations prepared measured index command =
      fun target =>
        (if target ∈ pattern.declaredQubits then []
          else [.unpreparedTarget index command target]) ++
        (if pattern.MeasuresBefore index target then
            [.measuredTarget index command target]
          else []) := by
    funext target
    simp only [WellFormed.targetViolations, preparedTest, measuredTest,
      decide_eq_true_iff]
  have sameSignals : WellFormed.signalViolations measured index command =
      fun signal =>
        if pattern.MeasuresBefore index signal then []
        else [.unmeasuredSignal index command signal] := by
    funext signal
    simp only [WellFormed.signalViolations, measuredTest, decide_eq_true_iff]
  unfold WellFormed.commandViolations commandBreaches
  rw [sameTargets, sameSignals]
  cases command with
  | entangle first second => rfl
  | measure qubit angle s t => rfl
  | correctX qubit signals => rfl
  | correctZ qubit signals => rfl

/-- The walk reports the breaches of the commands at their positions. -/
theorem walk_eq_flatMap_commandBreaches
    {pattern : Pattern R}
    {before rest : List (Command R)}
    (split : pattern.commands = before ++ rest)
    {prepared measured : QubitSet}
    (samePrepared : ∀ qubit, qubit ∈ prepared ↔ qubit ∈ pattern.declaredQubits)
    (sameMeasured : ∀ qubit, qubit ∈ measured ↔ qubit ∈ Command.measuredBy before) :
    WellFormed.walk prepared measured before.length rest =
      (rest.zipIdx before.length).flatMap fun (command, index) =>
        pattern.commandBreaches index command := by
  induction rest generalizing before measured with
  | nil => rfl
  | cons command rest inductionHypothesis =>
      have measuredHere (qubit : Qubit) :
          qubit ∈ measured ↔ pattern.MeasuresBefore before.length qubit := by
        rw [sameMeasured, ← mem_measuredBy_take_iff, split, List.take_left]
      rw [WellFormed.walk_cons, List.zipIdx_cons, List.flatMap_cons,
        commandViolations_eq_commandBreaches samePrepared measuredHere]
      have splitNext : pattern.commands = (before ++ [command]) ++ rest := by
        simp [split]
      have measuredNext (qubit : Qubit) :
          qubit ∈ WellFormed.recordMeasured measured command ↔
            qubit ∈ Command.measuredBy (before ++ [command]) := by
        rw [WellFormed.mem_recordMeasured sameMeasured]
        simp [Command.measuredAfter]
      have next := inductionHypothesis splitNext measuredNext
      rw [List.length_append] at next
      exact congrArg _ next

/-- The prepared qubits are the declared ones in ascending order. -/
theorem prepared_eq_sort (pattern : Pattern R) :
    pattern.prepared = pattern.declaredQubits.sort := by
  refine (Qubit.pairwise_ascending _).sortedLT.eq_of_mem_iff
    (Finset.sortedLT_sort _) fun qubit => ?_
  rw [Qubit.mem_ascending, Finset.mem_sort, mem_declaredQubits]

/-- The last member of an ascending list is the largest one. -/
theorem getLast?_getD_eq_sup
    {qubits : List Qubit}
    (ascending : qubits.Pairwise (· < ·)) :
    qubits.getLast?.getD 0 = qubits.toFinset.sup id := by
  induction qubits using List.reverseRecOn with
  | nil => rfl
  | append_singleton earlier last _ =>
      have below : earlier.toFinset.sup id ≤ last := by
        refine Finset.sup_le fun qubit member => ?_
        exact ((List.pairwise_append.1 ascending).2.2 qubit
          (List.mem_toFinset.1 member) last (List.mem_singleton_self last)).le
      rw [List.getLast?_concat, Option.getD_some, List.toFinset_append,
        Finset.sup_union, List.toFinset_cons, List.toFinset_nil,
        insert_empty_eq, Finset.sup_singleton]
      exact (sup_eq_right.2 below).symm

/-- The missing qubits are the gaps in the numbering. -/
theorem missing_prepared_eq_gaps (pattern : Pattern R) :
    WellFormed.missing pattern.prepared = pattern.gaps := by
  have largest : pattern.prepared.getLast?.getD 0 =
      pattern.declaredQubits.sup id := by
    rw [prepared_eq_sort,
      getLast?_getD_eq_sup (Finset.sortedLT_sort pattern.declaredQubits).pairwise,
      Finset.sort_toFinset]
  unfold WellFormed.missing gaps
  rw [largest]
  refine List.filter_congr fun qubit _ => ?_
  rw [Bool.eq_iff_iff, decide_eq_true_iff, mem_declaredQubits, ← mem_prepared]
  simp

theorem gapViolations_eq_numberingBreaches (pattern : Pattern R) :
    WellFormed.gapViolations pattern.prepared = pattern.numberingBreaches := by
  have contiguous : pattern.declaredQubits.sort =
        List.range pattern.declaredQubits.card ↔
      pattern.declaredQubits = Finset.range pattern.declaredQubits.card := by
    rw [← Finset.sort_range]
    constructor
    · intro same
      have sameSets := congrArg List.toFinset same
      rwa [Finset.sort_toFinset, Finset.sort_toFinset] at sameSets
    · intro same
      rw [← same]
  unfold WellFormed.gapViolations numberingBreaches
  rw [missing_prepared_eq_gaps, prepared_eq_sort, Finset.length_sort]
  simp only [contiguous]

theorem violations_eq_breaches (pattern : Pattern R) :
    pattern.violations = pattern.breaches := by
  have noneSeen (qubit : Qubit) :
      qubit ∈ (∅ : QubitSet) ↔ qubit ∈ ([] : List Qubit) := by
    simp
  have noneMeasured (qubit : Qubit) :
      qubit ∈ (∅ : QubitSet) ↔
        qubit ∈ Command.measuredBy ([] : List (Command R)) := by
    simp
  have samePrepared (qubit : Qubit) :
      qubit ∈ Std.TreeSet.ofList pattern.prepared ↔
        qubit ∈ pattern.declaredQubits := by
    rw [Std.TreeSet.mem_ofList, List.contains_iff_mem, mem_prepared,
      mem_declaredQubits]
  have repeated : (WellFormed.repeated ∅ (pattern.declared.map Prod.fst)).map
        Violation.repeatedPreparation =
      pattern.declared.zipIdx.flatMap fun entry =>
        pattern.declarationBreaches entry.2 entry.1.1 := by
    rw [map_repeated_eq_flatMap noneSeen, List.zipIdx_map, List.flatMap_map]
    simp only [List.nil_append, Prod.map_fst, Prod.map_snd, id_eq,
      mem_take_declared_iff]
    rfl
  have walked := walk_eq_flatMap_commandBreaches
    (List.nil_append pattern.commands).symm samePrepared noneMeasured
  unfold violations breaches
  rw [repeated, gapViolations_eq_numberingBreaches]
  exact congrArg (_ ++ · ++ _) walked

/-- The check decides the well-formedness conditions: it reports every breach of a
pattern, in order, and if there is none it accepts the pattern with the number of
its declared qubits. -/
theorem check_reports_breaches (pattern : Pattern R) :
    pattern.check =
      if pattern.breaches = [] then .ok pattern.declaredQubits.card
      else .error pattern.breaches := by
  have length : pattern.prepared.length = pattern.declaredQubits.card := by
    rw [prepared_eq_sort, Finset.length_sort]
  rw [check, violations_eq_breaches]
  split
  · next none => rw [none, if_pos rfl, length]
  · next some => rw [if_neg some]

/-- A measurement does not count as done before it reads its own signals, but a
second measurement of the same qubit is one too many. -/
example :
    (({ preparations := [.input 0 .plus, .ancillas [2, 0]]
        commands := [.measure 0 1 [0] [], .measure 0 1 [0] [], .correctX 1 [0]] } :
      Pattern Nat).breaches.map fun breach => (breach.condition, breach.qubits)) =
      [(.singlePreparation, [0]), (.measuredSignal, [0]), (.unmeasuredTarget, [0]),
        (.preparedTarget, [1]), (.contiguous, [1])] := by
  decide

end Pattern

end MeasurementCalculus
