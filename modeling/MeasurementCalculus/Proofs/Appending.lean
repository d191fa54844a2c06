import MeasurementCalculus.Proofs.Legality

/-!
# Appending commands

What the check reports of a command depends on the preparations and on the
earlier commands alone. This holds of commands in breach too: a repeated
measurement of a qubit and a measurement of a qubit that is not prepared still
count as measurements for the commands that follow. So a report only grows
while commands are appended, and every new entry is about a new command.
-/

namespace MeasurementCalculus

variable {R : Type}

namespace WellFormed

/-- A breach of a command carries its position and the command. -/
theorem place_of_mem_commandViolations
    {prepared measured : QubitSet}
    {index : Nat}
    {command : Command R}
    {violation : Violation R}
    (member : violation ∈ commandViolations prepared measured index command) :
    violation.place = some (index, command) := by
  simp only [commandViolations, List.mem_append, List.mem_flatMap] at member
  rcases member with (paired | ⟨target, _, targeted⟩) | ⟨signal, _, unread⟩
  · unfold pairViolations at paired
    split at paired
    · split at paired
      · rw [List.mem_singleton.1 paired]
        rfl
      · cases paired
    · cases paired
  · rcases List.mem_append.1 targeted with unprepared | done
    · split at unprepared
      · cases unprepared
      · rw [List.mem_singleton.1 unprepared]
        rfl
    · split at done
      · rw [List.mem_singleton.1 done]
        rfl
      · cases done
  · unfold signalViolations at unread
    split at unread
    · cases unread
    · rw [List.mem_singleton.1 unread]
      rfl

/-- A breach that a walk finds carries the position of a command, counted from that of the
first one, and the command. -/
theorem place_of_mem_walk
    {prepared measured : QubitSet}
    {index : Nat}
    {commands : List (Command R)}
    {violation : Violation R}
    (member : violation ∈ walk prepared measured index commands) :
    ∃ offset command, commands[offset]? = some command ∧
      violation.place = some (index + offset, command) := by
  induction commands generalizing measured index with
  | nil => cases member
  | cons command rest inductionHypothesis =>
      rw [walk_cons, List.mem_append] at member
      rcases member with here | later
      · exact ⟨0, command, rfl, place_of_mem_commandViolations here⟩
      · obtain ⟨offset, other, there, place⟩ := inductionHypothesis later
        refine ⟨offset + 1, other, there, ?_⟩
        rw [place, Nat.add_assoc, Nat.add_comm 1]

end WellFormed

namespace Pattern

/-- The report of a pattern with more commands has the breaches of the new commands, found
with the qubits that the earlier ones measure, between those of the earlier commands and
the gap. -/
theorem violations_append
    (pattern : Pattern R)
    (later : List (Command R)) :
    (pattern.append later).violations =
      (WellFormed.repeated ∅ (pattern.declared.map Prod.fst)).map
          .repeatedPreparation ++
        WellFormed.walk (Std.TreeSet.ofList pattern.prepared) ∅ 0 pattern.commands ++
        WellFormed.walk (Std.TreeSet.ofList pattern.prepared)
          (pattern.commands.foldl WellFormed.recordMeasured ∅) pattern.commands.length
          later ++
        WellFormed.gapViolations pattern.prepared := by
  have walked := WellFormed.walk_append (Std.TreeSet.ofList pattern.prepared) ∅ 0
    pattern.commands later
  rw [Nat.zero_add] at walked
  unfold violations
  change _ ++ WellFormed.walk (Std.TreeSet.ofList pattern.prepared) ∅ 0
    (pattern.commands ++ later) ++ _ = _
  rw [walked, ← List.append_assoc]
  rfl

/-- A report keeps its entries, in their order, while commands are appended. -/
theorem violations_sublist_append
    (pattern : Pattern R)
    (later : List (Command R)) :
    pattern.violations.Sublist (pattern.append later).violations := by
  rw [violations_append]
  exact (List.sublist_append_left _ _).append_right _

/-- Appending commands hides no violation: the longer report has all entries
of the shorter one, in their order, and new entries about the new commands
alone. A prefix of a well-formed pattern is well-formed. -/
theorem appending_hides_nothing
    (pattern : Pattern R)
    (later : List (Command R)) :
    (∃ repeated earlier added gap : List (Violation R),
      pattern.violations = repeated ++ earlier ++ gap ∧
      (pattern.append later).violations = repeated ++ earlier ++ added ++ gap ∧
      (∀ violation ∈ repeated, ∃ qubit, violation = .repeatedPreparation qubit) ∧
      (∀ violation ∈ earlier, ∃ index command,
        pattern.commands[index]? = some command ∧
        violation.place = some (index, command)) ∧
      (∀ violation ∈ added, ∃ index command,
        later[index]? = some command ∧
        violation.place = some (pattern.commands.length + index, command)) ∧
      (gap = [] ∨ ∃ count missing, gap = [.gap count missing])) ∧
    (∀ width, (pattern.append later).check = .ok width → pattern.check = .ok width) ∧
    ∀ breaches, pattern.check = .error breaches →
      ∃ all, (pattern.append later).check = .error all ∧ breaches.Sublist all := by
  refine ⟨⟨_, _, _, _, rfl, pattern.violations_append later, fun violation member => ?_,
    fun violation member => ?_, fun violation member => WellFormed.place_of_mem_walk member,
    ?_⟩, fun width accepted => ?_, fun breaches rejected => ?_⟩
  · obtain ⟨qubit, _, same⟩ := List.mem_map.1 member
    exact ⟨qubit, same.symm⟩
  · simpa only [Nat.zero_add] using WellFormed.place_of_mem_walk member
  · unfold WellFormed.gapViolations
    split
    · exact .inl rfl
    · exact .inr ⟨_, _, rfl⟩
  · -- Both patterns have the same declarations, and the walk over fewer commands is shorter.
    rw [check_eq_ok_iff] at accepted ⊢
    exact {
      declared_nodup := accepted.declared_nodup
      prepared_eq := accepted.prepared_eq
      legal := ((Command.allLegal_append _ _ _ _).1 accepted.legal).1 }
  · obtain ⟨rfl, nonempty⟩ := (check_eq_error_iff _ _).1 rejected
    have kept := pattern.violations_sublist_append later
    refine ⟨_, (check_eq_error_iff _ _).2 ⟨rfl, fun none => nonempty ?_⟩, kept⟩
    rw [none] at kept
    exact List.sublist_nil.1 kept

/-- The measurement of a qubit that is not prepared is in breach. It counts for the
appended correction all the same, which acts on a measured qubit and may read it. -/
example :
    ((({ preparations := [.input 0 .plus, .ancillas [0, 2]]
         commands := [.measure 1 1 [] []] } : Pattern Nat).append
      [.correctX 1 [1]]).violations.map fun violation =>
        (violation.condition, violation.place.map Prod.fst, violation.qubits)) =
      [(.singlePreparation, none, [0]), (.preparedTarget, some 0, [1]),
        (.preparedTarget, some 1, [1]), (.unmeasuredTarget, some 1, [1]),
        (.contiguous, none, [1])] := by
  decide

end Pattern

end MeasurementCalculus
