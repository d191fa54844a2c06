import MeasurementCalculus.Proofs.Floor

/-!
# No signalling between measurements

If no command reads the outcome of a measurement, the other outcomes do not
tell how the qubit was measured, nor whether it was measured at all. No later
command acts on the qubit, so along every path its projector can be moved
behind all of them, and there the two projectors share out the squared norm of
the wave.
-/

namespace MeasurementCalculus

open Function (update)

/-! ## Patterns that measure a qubit differently -/

namespace Command

variable {R : Type}

/-- Commands that measure every qubit once measure a qubit neither before nor after its
measurement. -/
theorem notMem_measuredBy
    {before after : List (Command R)}
    {qubit : Qubit}
    {angle : R}
    {s t : Signals}
    (nodup : (measuredBy (before ++ .measure qubit angle s t :: after)).Nodup) :
    qubit ∉ measuredBy before ∧ qubit ∉ measuredBy after := by
  rw [measuredBy_append, measuredBy_cons] at nodup
  rw [← not_or, ← List.mem_append]
  exact (List.nodup_middle.1 nodup).notMem

/-- Without a measurement whose outcome is not read, commands stay legal. -/
theorem AllLegal.remove
    {width : Nat}
    {before after : List (Command R)}
    {qubit : Qubit}
    {angle : R}
    {s t : Signals}
    (legal : AllLegal width [] (before ++ .measure qubit angle s t :: after))
    (unread : ∀ command ∈ after, qubit ∉ command.signals) :
    AllLegal width [] (before ++ after) := by
  rw [allLegal_append] at legal ⊢
  refine ⟨legal.1, legal.2.2.of_subset (fun other => List.mem_append_left _) ?_⟩
  intro command member signal inside there
  rcases List.mem_append.1 there with earlier | same
  · exact earlier
  · rw [List.mem_singleton.1 same] at inside
    exact absurd inside (unread command member)

end Command

namespace Pattern

variable {R : Type}

/-- Measure a qubit with another angle and other signals, or not at all. -/
def remeasure
    (qubit : Qubit)
    (replacement : Option (R × Signals × Signals))
    (pattern : Pattern R) : Pattern R :=
  { pattern with
    commands := pattern.commands.flatMap fun command =>
      if command.measured? = some qubit then
        (replacement.map fun (angle, s, t) => .measure qubit angle s t).toList
      else [command] }

theorem flatMap_of_unmeasured
    {qubit : Qubit}
    {commands : List (Command R)}
    (unmeasured : qubit ∉ Command.measuredBy commands)
    (replacement : List (Command R)) :
    (commands.flatMap fun command =>
      if command.measured? = some qubit then replacement else [command]) =
        commands := by
  induction commands with
  | nil => rfl
  | cons command rest inductionHypothesis =>
      rw [Command.measuredBy_cons, List.mem_append, Option.mem_toList, not_or]
        at unmeasured
      rw [List.flatMap_cons, if_neg unmeasured.1, inductionHypothesis unmeasured.2]
      rfl

/-- A measured qubit of a lawful pattern has a single measurement, which is the only
command that changes. -/
theorem Lawful.commands_remeasure
    {width : Nat}
    {pattern : Pattern R}
    (lawful : pattern.Lawful width)
    {qubit : Qubit}
    (measured : qubit ∈ pattern.measured) :
    ∃ before angle s t after,
      pattern.commands = before ++ .measure qubit angle s t :: after ∧
      ∀ replacement, (pattern.remeasure qubit replacement).commands =
        before ++ ((replacement.map fun (angle, s, t) =>
          Command.measure qubit angle s t).toList ++ after) := by
  obtain ⟨command, member, measures⟩ := List.mem_filterMap.1 measured
  obtain ⟨before, after, split⟩ := List.append_of_mem member
  rcases command.measured?_eq_none_or with noMeasure | ⟨target, angle, s, t, rfl⟩
  · rw [noMeasure] at measures
    cases measures
  · obtain rfl := Option.some.inj measures
    have nodup := lawful.nodup_measuredBy
    rw [split] at nodup
    have outside := Command.notMem_measuredBy nodup
    refine ⟨before, angle, s, t, after, split, fun replacement => ?_⟩
    unfold remeasure
    dsimp only
    rw [split, List.flatMap_append, List.flatMap_cons, if_pos measures,
      flatMap_of_unmeasured outside.1, flatMap_of_unmeasured outside.2]

/-- A lawful pattern stays lawful without a measurement whose outcome is not read. -/
theorem Lawful.remeasure_none
    {width : Nat}
    {pattern : Pattern R}
    (lawful : pattern.Lawful width)
    {qubit : Qubit}
    (measured : qubit ∈ pattern.measured)
    (unread : ∀ command ∈ pattern.commands, qubit ∉ command.signals) :
    (pattern.remeasure qubit none).Lawful width := by
  obtain ⟨before, angle, s, t, after, split, changes⟩ :=
    lawful.commands_remeasure measured
  have legal := lawful.legal
  rw [split] at legal unread
  refine ⟨lawful.declared_nodup, lawful.prepared_eq, ?_⟩
  rw [changes]
  exact legal.remove fun command member =>
    unread command (List.mem_append_right _ (List.mem_cons_of_mem _ member))

end Pattern

/-! ## What other qubits show -/

namespace Outcome

theorem bit?_along_of_notMem
    (bits : Qubit → Bool)
    {measured : List Qubit}
    {qubit : Qubit}
    (absent : qubit ∉ measured) :
    (along bits measured).bit? qubit = none := by
  rw [bit?, List.lookup_eq_none_iff]
  intro entry member
  obtain ⟨other, inside, rfl⟩ := List.mem_map.1 member
  rw [bne_iff_ne]
  rintro rfl
  exact absent inside

/-- The values that qubits show depend on their bits and on whether they are
measured. -/
theorem values?_along_congr
    {first second : Qubit → Bool}
    {measured others qubits : List Qubit}
    (bits : ∀ qubit ∈ qubits, first qubit = second qubit)
    (sameMeasured : ∀ qubit ∈ qubits, qubit ∈ measured ↔ qubit ∈ others) :
    (along first measured).values? qubits = (along second others).values? qubits := by
  unfold values?
  induction qubits with
  | nil => rfl
  | cons qubit rest inductionHypothesis =>
      rw [List.forall_mem_cons] at bits sameMeasured
      have here : (along first measured).bit? qubit =
          (along second others).bit? qubit := by
        by_cases member : qubit ∈ measured
        · rw [bit?_along first member, bit?_along second (sameMeasured.1.1 member),
            bits.1]
        · rw [bit?_along_of_notMem first member,
            bit?_along_of_notMem second (mt sameMeasured.1.2 member)]
      rw [List.mapM_cons, List.mapM_cons, here,
        inductionHypothesis bits.2 sameMeasured.2]

end Outcome

namespace Wave

variable {n : Nat}

/-- The bit of a qubit that the commands neither measure nor read does not matter. -/
theorem follow_update_of_unread
    (bits : Qubit → Bool)
    {qubit : Qubit}
    {commands : List (Command ℝ)}
    (unread : ∀ command ∈ commands, qubit ∉ command.signals)
    (unmeasured : qubit ∉ Command.measuredBy commands)
    (outcome : Bool)
    (wave : Wave n) :
    follow (update bits qubit outcome) commands wave = follow bits commands wave := by
  induction commands generalizing wave with
  | nil => rw [follow_nil, follow_nil]
  | cons command rest inductionHypothesis =>
      rw [List.forall_mem_cons] at unread
      rw [Command.measuredBy_cons, List.mem_append, not_or] at unmeasured
      have step : act (update bits qubit outcome) command wave =
          act bits command wave := by
        refine act_congr ?_ ?_ wave
        · intro signal member
          exact Function.update_of_ne (ne_of_mem_of_not_mem member unread.1) _ _
        · intro target member
          exact Function.update_of_ne
            (ne_of_mem_of_not_mem (Option.mem_toList.2 member) unmeasured.1) _ _
      rw [follow_cons, follow_cons, step,
        inductionHypothesis unread.2 unmeasured.2]

section Measurement

variable {before after : List (Command ℝ)}
variable {qubit : Qubit} {angle : ℝ} {s t : Signals}

/-- A measurement whose outcome is not read can be made at the end. -/
theorem follow_measure_last
    (legal : Command.AllLegal n [] (before ++ .measure qubit angle s t :: after))
    (unread : ∀ command ∈ before ++ after, qubit ∉ command.signals)
    (bits : Qubit → Bool)
    (outcome : Bool)
    (wave : Wave n) :
    follow (update bits qubit outcome) (before ++ .measure qubit angle s t :: after)
        wave =
      act (update bits qubit outcome) (.measure qubit angle s t)
        (follow bits (before ++ after) wave) := by
  obtain ⟨_, legalMeasure, legalAfter⟩ := (Command.allLegal_append ..).1 legal
  rw [List.forall_mem_append] at unread
  have outside := Command.notMem_measuredBy legal.nodup_measuredBy
  have apart (signal : Qubit) (member : signal ∈ s ++ t) : signal ≠ qubit :=
    legalMeasure.ne_of_mem member (by simp)
  have untouched (command : Command ℝ) (member : command ∈ after) :
      qubit ∉ command.targets := by
    intro target
    exact (legalAfter.target member target).2
      (List.mem_append_right _ (List.mem_singleton_self qubit))
  rw [follow_append, follow_cons, follow_update_of_unread bits unread.1 outside.1,
    follow_update_of_unread bits unread.2 outside.2, act_measure_update bits apart,
    act_measure_update bits apart, follow_gateAt bits untouched, follow_append]

end Measurement

end Wave

namespace Branch

variable {n : Nat}

/-- The weight of the paths on which the given qubits show the given values. -/
noncomputable def shownWeight
    (initial : Wave n)
    (commands : List (Command ℝ))
    (qubits : List Qubit)
    (values : List UInt8) : ℝ :=
  ((choices (Command.measuredBy commands)).map fun bits =>
    if (Outcome.along bits (Command.measuredBy commands)).values? qubits =
        some values then
      (Wave.follow bits commands initial).normSq
    else 0).sum

/-- Other qubits show the same values with and without a measurement whose outcome is
not read. -/
theorem shownWeight_measure
    (initial : Wave n)
    {before after : List (Command ℝ)}
    {qubit : Qubit}
    {angle : ℝ}
    {s t : Signals}
    (legal : Command.AllLegal n [] (before ++ .measure qubit angle s t :: after))
    (unread : ∀ command ∈ before ++ after, qubit ∉ command.signals)
    {qubits : List Qubit}
    (hidden : qubit ∉ qubits)
    (values : List UInt8) :
    shownWeight initial (before ++ .measure qubit angle s t :: after) qubits values =
      shownWeight initial (before ++ after) qubits values := by
  obtain ⟨_, legalMeasure, _⟩ := (Command.allLegal_append ..).1 legal
  have perm : (Command.measuredBy (before ++ .measure qubit angle s t :: after)).Perm
      (Command.measuredBy (before ++ after) ++ [qubit]) := by
    rw [Command.measuredBy_append, Command.measuredBy_append, Command.measuredBy_cons]
    exact List.perm_middle.trans (List.perm_append_singleton qubit _).symm
  have shows (bits : Qubit → Bool) (outcome : Bool) :
      (Outcome.along (update bits qubit outcome) (Command.measuredBy
          (before ++ .measure qubit angle s t :: after))).values? qubits =
        (Outcome.along bits (Command.measuredBy (before ++ after))).values?
          qubits := by
    refine Outcome.values?_along_congr (fun other member => ?_) fun other member => ?_
    · exact Function.update_of_ne (ne_of_mem_of_not_mem member hidden) _ _
    · rw [perm.mem_iff, List.mem_append, List.mem_singleton]
      exact or_iff_left (ne_of_mem_of_not_mem member hidden)
  unfold shownWeight
  rw [((choices_perm legal.nodup_measuredBy perm).map _).sum_eq, sum_choices_append_singleton]
  refine congrArg List.sum (List.map_congr_left fun bits _ => ?_)
  rw [shows, shows, Wave.follow_measure_last legal unread,
    Wave.follow_measure_last legal unread]
  split
  · exact Wave.normSq_act_measure_add bits
      (fun signal member => legalMeasure.ne_of_mem member (by simp))
      (legalMeasure.target_lt qubit (by simp)) angle _
  · exact add_zero 0

end Branch

namespace Program

/-- If a program is clear of the floor, its marginal gives every list of values the
weight of the paths that show it. -/
theorem ClearOfFloor.mass_marginal
    {program : Program ℝ}
    {tolerance : ℝ}
    (clear : program.ClearOfFloor tolerance)
    (nonneg : 0 ≤ tolerance)
    (qubits : List Qubit)
    (values : List UInt8) :
    (program.pathDistribution.marginal qubits).mass values =
      Branch.shownWeight (program.pattern.initialWave program.width)
        program.pattern.commands qubits values := by
  unfold Distribution.marginal
  rw [Tally.mass_pushforward, (program.entries_pathDistribution_perm.map _).sum_eq,
    Branch.kept, List.map_map, List.map_map]
  refine (sum_map_filter _ _ _).trans ?_
  refine congrArg List.sum (List.map_congr_left fun bits _ => ?_)
  have weight := clear.keptWeight_eq nonneg bits
  have shown := Branch.outcome_along program.lawful.legal
    (program.pattern.initialWave program.width) bits
  unfold Branch.keptWeight at weight
  rw [← weight]
  dsimp only [Function.comp_apply]
  rw [shown]
  split
  · rfl
  · exact (ite_self 0).symm

/-- The marginals of other qubits do not depend on how a qubit is measured, if it is
measured, as long as its outcome is not read. -/
theorem ClearOfFloor.mass_marginal_of_unread
    {program : Program ℝ}
    {tolerance : ℝ}
    (clear : program.ClearOfFloor tolerance)
    (nonneg : 0 ≤ tolerance)
    {before after : List (Command ℝ)}
    {qubit : Qubit}
    (replacement : Option (ℝ × Signals × Signals))
    (split : program.pattern.commands =
      before ++ ((replacement.map fun (angle, s, t) =>
        Command.measure qubit angle s t).toList ++ after))
    (unread : ∀ command ∈ before ++ after, qubit ∉ command.signals)
    {qubits : List Qubit}
    (hidden : qubit ∉ qubits)
    (values : List UInt8) :
    (program.pathDistribution.marginal qubits).mass values =
      Branch.shownWeight (program.pattern.initialWave program.width)
        (before ++ after) qubits values := by
  have legal := program.lawful.legal
  rw [clear.mass_marginal nonneg, split]
  rw [split] at legal
  cases replacement with
  | none => rw [Option.map_none, Option.toList_none, List.nil_append]
  | some measurement => exact Branch.shownWeight_measure _ legal unread hidden values

/-- If both programs are clear of the floor, the marginals of the other qubits do not
depend on how a qubit is measured, as long as its outcome is not read. -/
theorem marginal_remeasure
    {program changed : Program ℝ}
    {qubit : Qubit}
    (measured : qubit ∈ program.pattern.measured)
    (unread : ∀ command ∈ program.pattern.commands, qubit ∉ command.signals)
    {replacement : Option (ℝ × Signals × Signals)}
    (changes : changed.pattern = program.pattern.remeasure qubit replacement)
    {tolerance : ℝ}
    (nonneg : 0 ≤ tolerance)
    (clear : program.ClearOfFloor tolerance)
    (changedClear : changed.ClearOfFloor tolerance)
    {qubits : List Qubit}
    (hidden : qubit ∉ qubits) :
    program.pathDistribution.marginal qubits =
      changed.pathDistribution.marginal qubits := by
  obtain ⟨before, angle, s, t, after, split, commands⟩ :=
    program.lawful.commands_remeasure measured
  have unreadOthers : ∀ command ∈ before ++ after, qubit ∉ command.signals := by
    intro command member
    apply unread
    rw [split]
    exact List.mem_append.2 ((List.mem_append.1 member).imp_right
      (List.mem_cons_of_mem _))
  obtain ⟨_, width, accepted⟩ := changed
  subst changes
  -- Both programs prepare the same qubits.
  obtain rfl : width = program.width :=
    ((Pattern.check_eq_ok_iff _ _).1 accepted).width_eq program.lawful rfl
  refine Tally.Positive.eq_of_mass_eq
    (program.positive_pathDistribution.pushforward _)
    ((positive_pathDistribution _).pushforward _) fun values => ?_
  have here := clear.mass_marginal_of_unread nonneg (some (angle, s, t)) split
    unreadOthers hidden values
  have there := changedClear.mass_marginal_of_unread nonneg replacement
    (commands replacement) unreadOthers hidden values
  exact here.trans there.symm

/-- If no command reads the outcome of a measured qubit, the outcomes of the
other qubits do not tell how it is measured, nor whether it is, provided
that both programs are clear of the floor. -/
theorem no_signalling
    (program : Program ℝ)
    {qubit : Qubit}
    (measured : qubit ∈ program.pattern.measured)
    (unread : ∀ command ∈ program.pattern.commands, qubit ∉ command.signals) :
    (program.pattern.remeasure qubit none).check = .ok program.width ∧
    ∀ (replacement : Option (ℝ × Signals × Signals)) (changed : Program ℝ),
      changed.pattern = program.pattern.remeasure qubit replacement →
        ∀ tolerance : ℝ, program.ClearOfFloor tolerance →
          changed.ClearOfFloor tolerance →
            ∀ first second : Distribution ℝ,
              program.enumerate tolerance = .ok first →
                changed.enumerate tolerance = .ok second →
                  ∀ qubits : List Qubit, qubit ∉ qubits →
                    first.marginal qubits = second.marginal qubits := by
  constructor
  · rw [Pattern.check_eq_ok_iff]
    exact program.lawful.remeasure_none measured unread
  · intro replacement changed changes tolerance clear changedClear first second success
      changedSuccess qubits hidden
    rw [eq_pathDistribution success, eq_pathDistribution changedSuccess]
    exact marginal_remeasure measured unread changes (nonneg_of_enumerate_eq_ok success)
      clear changedClear hidden

/-- A program that differs from `fair` in the second measurement, whose angle depends on
the first outcome. -/
noncomputable def fairAdaptive : Program ℝ where
  pattern := fair.pattern.remeasure 1 (some (1, [0], []))
  width := 3
  accepted := rfl

theorem no_signalling_fair :
    (fair.pattern.remeasure 1 none).check = .ok 3 ∧
    ∃ first second, fair.enumerate 0 = .ok first ∧
      fairAdaptive.enumerate 0 = .ok second ∧
      first.marginal [0] = second.marginal [0] := by
  have clear := clearOfFloor_fair le_rfl
  have changedClear : fairAdaptive.ClearOfFloor 0 := by
    have measured : fairAdaptive.pattern.measured = [0, 1] := rfl
    refine clearOfFloor_of_unset ?_ ?_ le_rfl
    · rw [measured]
      simp [fairAdaptive, Pattern.remeasure, fair, Pattern.declared]
    · rw [measured]
      simp [fairAdaptive, Pattern.remeasure, fair, Command.measured?]
  have measured : 1 ∈ fair.pattern.measured :=
    List.mem_cons_of_mem 0 (List.mem_singleton_self 1)
  obtain ⟨accepted, unchanged⟩ := no_signalling fair measured (by simp [fair])
  have success := clear.enumerate_eq_ok le_rfl
  have changedSuccess := changedClear.enumerate_eq_ok le_rfl
  exact ⟨accepted, _, _, success, changedSuccess,
    unchanged (some (1, [0], [])) fairAdaptive rfl 0 clear changedClear _ _ success
      changedSuccess [0] (by decide)⟩

end Program

end MeasurementCalculus
