import MeasurementCalculus.Proofs.Path
import MeasurementCalculus.StandardForm

/-!
# Moving entanglements to the front

An entanglement may be executed before all commands that precede it. It
commutes with everything but an X on one of its qubits, and the Z correction
that it leaves behind such an X makes up for this. Its qubits are not measured
before it, so no measurement stands in its way. Along every path the wave
stays the same, without any factor.
-/

namespace MeasurementCalculus

namespace StandardForm

open Command

variable {R : Type}

/-! ## What passing leaves behind -/

/-- What an entanglement leaves behind is a Z correction on one of its qubits with
the signals of the X correction that it passes on the other one. -/
theorem spawned_eq_some
    {first second : Qubit}
    {command left : Command R}
    (spawns : spawned first second command = some left) :
    ∃ qubit signals,
      (qubit = first ∨ qubit = second) ∧
      left = .correctZ qubit signals ∧
      signals = command.signals := by
  cases command with
  | correctX target signals =>
      rw [spawned] at spawns
      split at spawns
      · exact ⟨second, signals, .inr rfl, (Option.some.inj spawns).symm, rfl⟩
      · split at spawns
        · exact ⟨first, signals, .inl rfl, (Option.some.inj spawns).symm, rfl⟩
        · cases spawns
  | entangle _ _ => cases spawns
  | measure _ _ _ _ => cases spawns
  | correctZ _ _ => cases spawns

theorem readings_spawned
    (first second : Qubit)
    (command : Command R) :
    readings (spawned first second command).toList = [] := by
  cases spawns : spawned first second command with
  | none => rfl
  | some left =>
      obtain ⟨_, _, _, rfl, _⟩ := spawned_eq_some spawns
      rfl

theorem measuredBy_spawned
    (first second : Qubit)
    (command : Command R) :
    measuredBy (spawned first second command).toList = [] := by
  rw [measuredBy_eq_map_readings, readings_spawned, List.map_nil]

/-- A view of commands that an entanglement has passed shows each command and then what
is left behind it. -/
theorem filterMap_pass
    {α : Type}
    (view : Command R → Option α)
    (first second : Qubit)
    (commands : List (Command R)) :
    (pass first second commands).filterMap view =
      commands.flatMap fun command =>
        (view command).toList ++ ((spawned first second command).bind view).toList := by
  rw [pass, List.filterMap_flatMap]
  congr 1
  funext command
  rw [List.filterMap_cons]
  cases spawned first second command with
  | none => cases view command <;> rfl
  | some left =>
      rw [Option.toList_some, List.filterMap_cons, Option.bind_some]
      cases view command <;> cases view left <;> rfl

theorem filterMap_pass_perm
    {α : Type}
    (view : Command R → Option α)
    (first second : Qubit)
    (commands : List (Command R)) :
    ((pass first second commands).filterMap view).Perm
      (commands.filterMap view ++
        commands.filterMap fun command => (spawned first second command).bind view) := by
  rw [filterMap_pass, List.filterMap_eq_flatMap_toList, List.filterMap_eq_flatMap_toList]
  exact (List.flatMap_append_perm commands _ _).symm

/-- Commands stay legal when an entanglement of qubits that they do not measure
passes them. -/
theorem allLegal_pass
    {width : Nat}
    {first second : Qubit}
    (firstInside : first < width)
    (secondInside : second < width)
    {measured : List Qubit}
    {commands : List (Command R)}
    (firstFresh : first ∉ measured ++ measuredBy commands)
    (secondFresh : second ∉ measured ++ measuredBy commands)
    (legal : AllLegal width measured commands) :
    AllLegal width measured (pass first second commands) := by
  induction commands generalizing measured with
  | nil => exact trivial
  | cons command rest inductionHypothesis =>
      obtain ⟨head, tail⟩ := legal
      rw [measuredBy_cons, ← List.append_assoc] at firstFresh secondFresh
      rw [pass_cons]
      refine ⟨head, ?_⟩
      rw [allLegal_append, measuredBy_spawned, List.append_nil]
      refine ⟨?_, inductionHypothesis firstFresh secondFresh tail⟩
      cases spawns : spawned first second command with
      | none => exact trivial
      | some left =>
          obtain ⟨qubit, signals, side, rfl, rfl⟩ := spawned_eq_some spawns
          refine ⟨⟨?_, ?_, by simp, ?_⟩, trivial⟩
          · intro target member
            rw [List.mem_singleton.1 member]
            rcases side with rfl | rfl
            · exact firstInside
            · exact secondInside
          · intro target member inside
            rw [List.mem_singleton.1 member] at inside
            rcases side with rfl | rfl
            · exact firstFresh (List.mem_append_left _ inside)
            · exact secondFresh (List.mem_append_left _ inside)
          · intro signal member
            exact List.mem_append_left _ (head.signal_mem signal member)

/-! ## Passing along a path -/

section Wave

variable {n : Nat} (bits : Qubit → Bool)

/-- An entanglement after a command is the entanglement before it, followed by what
it leaves behind. -/
theorem controlledZAt_act
    {first second : Qubit}
    (different : first ≠ second)
    (firstInside : first < n)
    (secondInside : second < n)
    {command : Command ℝ}
    (firstFresh : first ∉ command.measured?)
    (secondFresh : second ∉ command.measured?)
    (wave : Wave n) :
    (Wave.act bits command wave).controlledZAt first second =
      Wave.follow bits (spawned first second command).toList
        (Wave.act bits command (wave.controlledZAt first second)) := by
  cases command with
  | entangle third fourth => exact Wave.controlledZAt_comm _ _ _ _ wave
  | measure qubit angle s t =>
      refine Wave.controlledZAt_gateAt ?_ ?_ _ wave
      · rintro rfl
        exact firstFresh rfl
      · rintro rfl
        exact secondFresh rfl
  | correctX qubit signals =>
      rw [spawned]
      split
      · next same =>
          subst same
          lift qubit to Fin n using firstInside
          lift second to Fin n using secondInside
          simp only [Wave.act, Wave.gateAt_val, Wave.controlledZAt_val,
            Option.toList_some, Wave.follow_cons, Wave.follow_nil]
          exact Wave.controlledZ_pauliX
            (fun same => different (congrArg Fin.val same)) _ wave
      · next notFirst =>
          split
          · next same =>
              subst same
              lift qubit to Fin n using secondInside
              lift first to Fin n using firstInside
              rw [Wave.controlledZAt_symm, Wave.controlledZAt_symm first.val]
              simp only [Wave.act, Wave.gateAt_val, Wave.controlledZAt_val,
                Option.toList_some, Wave.follow_cons, Wave.follow_nil]
              exact Wave.controlledZ_pauliX
                (fun same => different (congrArg Fin.val same).symm) _ wave
          · next notSecond =>
              exact Wave.controlledZAt_gateAt notFirst notSecond _ wave
  | correctZ qubit signals =>
      exact Wave.controlledZAt_pauliZ first second qubit _ wave

/-- An entanglement after commands is the entanglement before the commands with
what it leaves behind. -/
theorem controlledZAt_follow
    {first second : Qubit}
    (different : first ≠ second)
    (firstInside : first < n)
    (secondInside : second < n)
    {commands : List (Command ℝ)}
    (firstFresh : first ∉ measuredBy commands)
    (secondFresh : second ∉ measuredBy commands)
    (wave : Wave n) :
    (Wave.follow bits commands wave).controlledZAt first second =
        Wave.follow bits (pass first second commands)
          (wave.controlledZAt first second) ∧
      Wave.conditionals bits commands wave =
        Wave.conditionals bits (pass first second commands)
          (wave.controlledZAt first second) := by
  induction commands generalizing wave with
  | nil => exact ⟨rfl, rfl⟩
  | cons command rest inductionHypothesis =>
      rw [measuredBy_cons, List.mem_append, not_or] at firstFresh secondFresh
      obtain ⟨sameWave, sameConditionals⟩ := inductionHypothesis firstFresh.2
        secondFresh.2 (Wave.act bits command wave)
      have passed := controlledZAt_act bits different firstInside secondInside
        (by simpa using firstFresh.1) (by simpa using secondFresh.1) wave
      have sameHead : Wave.conditionals bits [command] wave =
          Wave.conditionals bits [command] (wave.controlledZAt first second) := by
        refine Wave.conditionals_singleton_congr bits rfl
          (Wave.normSq_controlledZAt first second wave).symm ?_
        rw [← Wave.normSq_controlledZAt first second (Wave.act bits command wave),
          passed, (Wave.normSq_follow bits (measuredBy_spawned _ _ _) _).1]
      refine ⟨?_, ?_⟩
      · rw [Wave.follow_cons, sameWave, passed, pass_cons, Wave.follow_cons,
          Wave.follow_append]
      · rw [Wave.conditionals_cons, sameHead, sameConditionals, passed, pass_cons,
          Wave.conditionals_cons bits command (_ ++ _), Wave.conditionals_append,
          (Wave.normSq_follow bits (measuredBy_spawned _ _ _) _).2,
          List.nil_append]

end Wave

/-! ## Separating all entanglements -/

theorem separate_append_singleton
    (commands : List (Command R))
    (command : Command R) :
    separate (commands ++ [command]) = (separate commands).push command :=
  List.foldl_append

theorem push_of_not_entangle
    (separated : Separated R)
    {command : Command R}
    (other : command.isEntangle = false) :
    separated.push command =
      { separated with others := separated.others ++ [command] } := by
  cases command with
  | entangle first second => cases other
  | measure qubit angle s t => rfl
  | correctX qubit signals => rfl
  | correctZ qubit signals => rfl

/-- The entanglements are taken out in their order. -/
theorem entanglements_separate (commands : List (Command R)) :
    (separate commands).entanglements = commands.filter isEntangle := by
  induction commands using List.reverseRecOn with
  | nil => rfl
  | append_singleton before command inductionHypothesis =>
      rw [separate_append_singleton, List.filter_append, ← inductionHypothesis]
      rcases command.isEntangle_eq_false_or with other | ⟨first, second, rfl⟩
      · rw [push_of_not_entangle _ other, List.filter_singleton, other]
        exact (List.append_nil _).symm
      · rfl

/-- A view that shows neither entanglements nor Z corrections shows the same of the
commands from which the entanglements are taken out. -/
theorem filterMap_separate
    {α : Type}
    (view : Command R → Option α)
    (entangle : ∀ first second, view (.entangle first second) = none)
    (correctZ : ∀ qubit signals, view (.correctZ qubit signals) = none)
    (commands : List (Command R)) :
    (separate commands).others.filterMap view = commands.filterMap view := by
  induction commands using List.reverseRecOn with
  | nil => rfl
  | append_singleton before command inductionHypothesis =>
      rw [separate_append_singleton, List.filterMap_append, ← inductionHypothesis]
      rcases command.isEntangle_eq_false_or with other | ⟨first, second, rfl⟩
      · rw [push_of_not_entangle _ other, List.filterMap_append]
      · have nothing (passed : Command R) :
            ((spawned first second passed).bind view).toList = [] := by
          cases spawns : spawned first second passed with
          | none => rfl
          | some left =>
              obtain ⟨qubit, signals, _, rfl, _⟩ := spawned_eq_some spawns
              rw [Option.bind_some, correctZ, Option.toList_none]
        change (pass first second (separate before).others).filterMap view = _
        rw [filterMap_pass, List.filterMap_cons_none (entangle first second),
          List.filterMap_nil, List.append_nil, List.filterMap_eq_flatMap_toList]
        simp only [nothing, List.append_nil]

/-- The commands that remain measure the same qubits at the same angles. -/
theorem readings_separate (commands : List (Command R)) :
    readings (separate commands).entanglements = [] ∧
      readings (separate commands).others = readings commands := by
  constructor
  · rw [entanglements_separate, readings, List.filterMap_eq_nil_iff]
    intro command member
    cases command with
    | entangle first second => rfl
    | measure qubit angle s t => simp [isEntangle] at member
    | correctX qubit signals => rfl
    | correctZ qubit signals => rfl
  · exact filterMap_separate reading? (fun _ _ => rfl) (fun _ _ => rfl) commands

/-- The separated commands measure the same qubits in the same order. -/
theorem measuredBy_separate (commands : List (Command R)) :
    measuredBy (separate commands).entanglements = [] ∧
      measuredBy (separate commands).others = measuredBy commands := by
  obtain ⟨noReading, sameReadings⟩ := readings_separate commands
  simp only [measuredBy_eq_map_readings, noReading, sameReadings, List.map_nil,
    and_self]

/-- The commands that remain are no entanglements. -/
theorem isEntangle_of_mem_others
    {commands : List (Command R)}
    {command : Command R}
    (member : command ∈ (separate commands).others) :
    command.isEntangle = false := by
  induction commands using List.reverseRecOn generalizing command with
  | nil => cases member
  | append_singleton before last inductionHypothesis =>
      rw [separate_append_singleton] at member
      rcases last.isEntangle_eq_false_or with other | ⟨first, second, rfl⟩
      · rw [push_of_not_entangle _ other] at member
        rcases List.mem_append.1 member with earlier | new
        · exact inductionHypothesis earlier
        · rw [List.mem_singleton.1 new]
          exact other
      · obtain ⟨passed, inside, there⟩ := List.mem_flatMap.1 member
        rcases List.mem_cons.1 there with rfl | left
        · exact inductionHypothesis inside
        · obtain ⟨_, _, _, rfl, _⟩ :=
            spawned_eq_some (Option.mem_toList.1 left)
          rfl

/-- The separated commands of a legal list are legal. -/
theorem allLegal_separate
    {width : Nat}
    {commands : List (Command R)}
    (legal : AllLegal width [] commands) :
    AllLegal width [] (separate commands).entanglements ∧
      AllLegal width [] (separate commands).others := by
  induction commands using List.reverseRecOn with
  | nil => exact ⟨trivial, trivial⟩
  | append_singleton before command inductionHypothesis =>
      obtain ⟨legalBefore, legalCommand, _⟩ :=
        (allLegal_append width [] before [command]).1 legal
      obtain ⟨entanglements, others⟩ := inductionHypothesis legalBefore
      obtain ⟨noMeasure, sameMeasured⟩ := measuredBy_separate before
      rw [separate_append_singleton]
      rcases command.isEntangle_eq_false_or with other | ⟨first, second, rfl⟩
      · rw [push_of_not_entangle _ other, allLegal_append, sameMeasured]
        exact ⟨entanglements, others, legalCommand, trivial⟩
      · refine ⟨?_, ?_⟩
        · change AllLegal width [] ((separate before).entanglements ++ _)
          rw [allLegal_append, noMeasure]
          refine ⟨entanglements, ⟨legalCommand.target_lt, ?_,
            legalCommand.targets_nodup, ?_⟩, trivial⟩
          · intro target _ member
            cases member
          · intro signal member
            cases member
        · obtain ⟨firstInside, firstFresh⟩ := legalCommand.entangle_first
          obtain ⟨secondInside, secondFresh⟩ := legalCommand.entangle_second
          rw [← sameMeasured] at firstFresh secondFresh
          exact allLegal_pass firstInside secondInside firstFresh secondFresh others

/-- Along every path the separated commands lead to the same wave with the same
conditional probabilities. -/
theorem follow_separate
    {n : Nat}
    (bits : Qubit → Bool)
    {commands : List (Command ℝ)}
    (legal : AllLegal n [] commands)
    (wave : Wave n) :
    Wave.follow bits commands wave =
        Wave.follow bits (separate commands).others
          (Wave.follow bits (separate commands).entanglements wave) ∧
      Wave.conditionals bits commands wave =
        Wave.conditionals bits (separate commands).others
          (Wave.follow bits (separate commands).entanglements wave) := by
  -- An entanglement passes the commands before it, so the last command is split off.
  induction commands using List.reverseRecOn with
  | nil => exact ⟨rfl, rfl⟩
  | append_singleton before command inductionHypothesis =>
      obtain ⟨legalBefore, legalCommand, _⟩ :=
        (allLegal_append n [] before [command]).1 legal
      obtain ⟨sameWave, sameConditionals⟩ := inductionHypothesis legalBefore
      obtain ⟨_, sameMeasured⟩ := measuredBy_separate before
      rw [separate_append_singleton]
      rcases command.isEntangle_eq_false_or with other | ⟨first, second, rfl⟩
      · rw [push_of_not_entangle _ other, Wave.follow_append, sameWave,
          Wave.follow_append, Wave.conditionals_append, sameConditionals,
          sameWave, Wave.conditionals_append]
        exact ⟨rfl, rfl⟩
      · obtain ⟨firstInside, firstFresh⟩ := legalCommand.entangle_first
        obtain ⟨secondInside, secondFresh⟩ := legalCommand.entangle_second
        rw [List.nil_append, ← sameMeasured] at firstFresh secondFresh
        obtain ⟨passedWave, passedConditionals⟩ :=
          controlledZAt_follow bits legalCommand.entangle_ne firstInside
            secondInside firstFresh secondFresh
            (Wave.follow bits (separate before).entanglements wave)
        refine ⟨?_, ?_⟩
        · rw [Wave.follow_append, sameWave]
          change Wave.controlledZAt first second _ = Wave.follow bits
            (pass first second (separate before).others)
            (Wave.follow bits ((separate before).entanglements ++ _) wave)
          rw [passedWave, Wave.follow_append]
          rfl
        · rw [Wave.conditionals_append, sameConditionals, passedConditionals]
          change _ ++ [] = Wave.conditionals bits
            (pass first second (separate before).others)
            (Wave.follow bits ((separate before).entanglements ++ _) wave)
          rw [List.append_nil, Wave.follow_append]
          rfl

end StandardForm

end MeasurementCalculus
