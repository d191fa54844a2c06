import MeasurementCalculus.Proofs.Draws

/-!
# Outcomes are faithful records

A run writes the outcome of every measurement down once and never changes what
it has written. So the outcome at its end lists the measured qubits in their
order, each with a bit, and every parity that a command has read on the way
can be read off it. Each branch ends with an outcome of its own and has an
entry of its own.
-/

namespace MeasurementCalculus

namespace Command

variable {R : Type}

/-- The signal lists of a command, each of which it reads on its own. -/
def signalLists : Command R → List Signals
  | .entangle .. => []
  | .measure _ _ s t => [s, t]
  | .correctX _ signals => [signals]
  | .correctZ _ signals => [signals]

/-- The signals of a command are those of its signal lists. -/
theorem flatten_signalLists (command : Command R) :
    command.signalLists.flatten = command.signals := by
  cases command with
  | entangle first second => rfl
  | measure qubit angle s t => simp [signalLists]
  | correctX qubit signals => simp [signalLists]
  | correctZ qubit signals => simp [signalLists]

end Command

/-! ## Outcomes that continue each other -/

namespace Outcome

/-- An outcome is continued by another one that has further bits behind its own. -/
def ContinuedBy (earlier later : Outcome) : Prop :=
  ∃ further : List (Qubit × Bool),
    later.bits = earlier.bits ++ further.map fun entry => (entry.1, entry.2.toUInt8)

theorem ContinuedBy.refl (outcome : Outcome) : outcome.ContinuedBy outcome :=
  ⟨[], by simp⟩

theorem ContinuedBy.trans
    {first second third : Outcome}
    (continued : first.ContinuedBy second)
    (longer : second.ContinuedBy third) :
    first.ContinuedBy third := by
  obtain ⟨further, bits⟩ := continued
  obtain ⟨more, moreBits⟩ := longer
  refine ⟨further ++ more, ?_⟩
  rw [moreBits, bits, List.map_append, List.append_assoc]

theorem continuedBy_record
    (outcome : Outcome)
    (qubit : Qubit)
    (bit : Bool) :
    outcome.ContinuedBy (outcome.record qubit bit) :=
  ⟨[(qubit, bit)], outcome.bits_record qubit bit⟩

/-- A value that is recorded stays recorded. -/
theorem ContinuedBy.bit?_eq
    {earlier later : Outcome}
    (continued : earlier.ContinuedBy later)
    {qubit : Qubit}
    (recorded : (earlier.bit? qubit).isSome) :
    later.bit? qubit = earlier.bit? qubit := by
  obtain ⟨further, bits⟩ := continued
  unfold bit? at recorded ⊢
  rw [bits, List.lookup_append, Option.or_of_isSome recorded]

/-- What continues the empty outcome has bits as values. -/
theorem ContinuedBy.value_eq
    {outcome : Outcome}
    (continued : empty.ContinuedBy outcome) :
    ∀ entry ∈ outcome.bits, entry.2 = 0 ∨ entry.2 = 1 := by
  obtain ⟨further, bits⟩ := continued
  intro entry member
  rw [bits] at member
  obtain ⟨⟨qubit, bit⟩, _, rfl⟩ := List.mem_map.1 member
  cases bit with
  | false => exact .inl rfl
  | true => exact .inr rfl

end Outcome

namespace Run

variable {R : Type} {n : Nat}

/-- A run reads the signal lists of a command as they can be read off an outcome: every
signal has a value there, and the parities are the same. -/
def ReadsAs
    (outcome : Outcome)
    (command : Command R)
    (run : Run R n) : Prop :=
  ∀ signals ∈ command.signalLists,
    (∀ signal ∈ signals, (outcome.bit? signal).isSome) ∧
    run.parity signals =
      .ok (signals.parity fun qubit => (outcome.bit? qubit).getD 0)

/-- A legal command reads what every continuation of the outcome still shows. -/
theorem Recorded.readsAs
    {measured : List Qubit}
    {run : Run R n}
    (recorded : run.Recorded measured)
    {command : Command R}
    (legal : command.Legal n measured)
    {outcome : Outcome}
    (continued : run.outcome.ContinuedBy outcome) :
    run.ReadsAs outcome command := by
  intro signals listed
  have inside (signal : Qubit) (member : signal ∈ signals) : signal ∈ measured := by
    apply legal.signal_mem
    rw [← command.flatten_signalLists]
    exact List.mem_flatten.2 ⟨signals, listed, member⟩
  have filled (signal : Qubit) (member : signal ∈ signals) :
      (run.value? signal).isSome :=
    (recorded.isSome_iff signal).2 (inside signal member)
  have shown (signal : Qubit) (member : signal ∈ signals) :
      outcome.bit? signal = run.value? signal := by
    rw [← recorded.bit?_outcome, continued.bit?_eq]
    rw [recorded.bit?_outcome]
    exact filled signal member
  refine ⟨fun signal member => ?_, ?_⟩
  · rw [shown signal member]
    exact filled signal member
  · rw [Run.parity_eq_ok filled]
    congr 1
    apply Signals.parity_congr
    intro signal member
    rw [shown signal member]

/-! ## Shots -/

section Shot

variable [Scalar R] {G : Type} [DrawSource G R]

/-- A step of a shot writes at most one bit behind those that are recorded. -/
theorem continuedBy_of_shotStep_eq_ok
    {measured : List Qubit}
    {run next : Run R n}
    (recorded : run.Recorded measured)
    {command : Command R}
    (legal : command.Legal n measured)
    {tolerance : R}
    {index : Nat}
    {source rest : G}
    (stepped : run.shotStep tolerance index command source = .ok (next, rest)) :
    run.outcome.ContinuedBy next.outcome := by
  rcases command.measured?_eq_none_or with noMeasure | ⟨qubit, angle, s, t, rfl⟩
  · rw [shotStep_of_not_measure noMeasure] at stepped
    obtain ⟨_, applied, same⟩ := bind_eq_ok stepped
    cases same
    rw [outcome_of_apply_eq_ok applied]
    exact .refl _
  · obtain ⟨pending, pends, chosen⟩ := bind_eq_ok stepped
    obtain ⟨_, collapsed, same⟩ := bind_eq_ok chosen
    cases same
    rw [outcome_of_collapse_eq_ok (fresh_of_measurement_eq_ok recorded legal pends)
      collapsed]
    exact Outcome.continuedBy_record _ _ _

theorem continuedBy_of_shootFrom_eq_ok
    {measured : List Qubit}
    {run final : Run R n}
    (recorded : run.Recorded measured)
    {commands : List (Command R)}
    (legal : Command.AllLegal n measured commands)
    {tolerance : R}
    {index : Nat}
    {source rest : G}
    (success : run.shootFrom tolerance index source commands = .ok (final, rest)) :
    run.outcome.ContinuedBy final.outcome := by
  induction commands generalizing measured index run source with
  | nil =>
      cases success
      exact .refl _
  | cons command later inductionHypothesis =>
      obtain ⟨⟨next, after⟩, stepped, continued⟩ := bind_eq_ok success
      have safe := shotStep_endsSafely recorded legal.1 tolerance index source
      rw [stepped] at safe
      exact (continuedBy_of_shotStep_eq_ok recorded legal.1 stepped).trans
        (inductionHypothesis safe legal.2 continued)

/-- A shot of commands that follow others goes on where those end. -/
theorem shootFrom_append
    (tolerance : R)
    (index : Nat)
    (run : Run R n)
    (source : G)
    (first second : List (Command R)) :
    run.shootFrom tolerance index source (first ++ second) =
      (run.shootFrom tolerance index source first >>= fun result =>
        result.1.shootFrom tolerance (index + first.length) result.2 second) := by
  induction first generalizing index run source with
  | nil => rfl
  | cons command rest inductionHypothesis =>
      rw [List.cons_append, shootFrom, shootFrom, bind_assoc]
      simp only [inductionHypothesis, List.length_cons, Nat.add_assoc, Nat.add_comm 1]

end Shot

end Run

/-! ## Branches -/

namespace Branch

variable {R : Type} [Scalar R] {n : Nat}

/-- A step on a branch writes at most one bit behind those that are recorded. -/
theorem continuedBy_of_step_eq_ok
    {measured : List Qubit}
    {branch successor : Branch R n}
    (recorded : branch.run.Recorded measured)
    {command : Command R}
    (legal : command.Legal n measured)
    {tolerance : R}
    {index : Nat}
    {successors : List (Branch R n)}
    (stepped : step tolerance index command branch = .ok successors)
    (member : successor ∈ successors) :
    branch.run.outcome.ContinuedBy successor.run.outcome := by
  rcases command.measured?_eq_none_or with noMeasure | ⟨qubit, angle, s, t, rfl⟩
  · rw [step_of_not_measure noMeasure] at stepped
    obtain ⟨run, applied, same⟩ := bind_eq_ok stepped
    cases same
    rw [List.mem_singleton.1 member, Run.outcome_of_apply_eq_ok applied]
    exact .refl _
  · obtain ⟨pending, pends, branched⟩ := bind_eq_ok stepped
    obtain ⟨outcome, _, taken⟩ :=
      exists_mem_of_forall₂ (forall₂_of_mapM_eq_ok branched).flip member
    rw [Run.outcome_of_collapse_eq_ok
      (Run.fresh_of_measurement_eq_ok recorded legal pends) (collapse_of_take_eq_ok taken)]
    exact Outcome.continuedBy_record _ _ _

/-- A command has at most one successor, a measurement at most two. -/
theorem length_le_of_step_eq_ok
    {tolerance : R}
    {index : Nat}
    {command : Command R}
    {branch : Branch R n}
    {successors : List (Branch R n)}
    (stepped : step tolerance index command branch = .ok successors) :
    successors.length ≤ 2 ^ command.measured?.toList.length := by
  rcases command.measured?_eq_none_or with noMeasure | ⟨qubit, angle, s, t, rfl⟩
  · rw [step_of_not_measure noMeasure] at stepped
    obtain ⟨run, _, same⟩ := bind_eq_ok stepped
    cases same
    rw [noMeasure]
    exact Nat.le_refl 1
  · obtain ⟨pending, _, branched⟩ := bind_eq_ok stepped
    rw [← (forall₂_of_mapM_eq_ok branched).length_eq]
    exact List.length_filter_le _ [false, true]

/-- Every measurement at most doubles the branches. -/
theorem length_le_of_enumerateFrom_eq_ok
    {tolerance : R}
    {index : Nat}
    {commands : List (Command R)}
    {branches last : List (Branch R n)}
    (success : enumerateFrom tolerance index branches commands = .ok last) :
    last.length ≤ branches.length * 2 ^ (Command.measuredBy commands).length := by
  induction commands generalizing index branches with
  | nil =>
      cases success
      simp
  | cons command rest inductionHypothesis =>
      obtain ⟨groups, stepped, continued⟩ := bind_eq_ok success
      have pairs := forall₂_of_mapM_eq_ok stepped
      have group (length : Nat) (member : length ∈ groups.map List.length) :
          length ≤ 2 ^ command.measured?.toList.length := by
        obtain ⟨successors, listed, rfl⟩ := List.mem_map.1 member
        obtain ⟨parent, _, branched⟩ := exists_mem_of_forall₂ pairs.flip listed
        exact length_le_of_step_eq_ok branched
      have flattened : groups.flatten.length ≤
          branches.length * 2 ^ command.measured?.toList.length := by
        rw [List.length_flatten, pairs.length_eq]
        simpa using List.sum_le_card_nsmul _ _ group
      rw [Command.measuredBy_cons, List.length_append, Nat.pow_add, ← Nat.mul_assoc]
      exact (inductionHypothesis continued).trans (Nat.mul_le_mul_right _ flattened)

/-- Every branch at the end of an enumeration is the end of a trace. -/
theorem exists_trace_to
    {tolerance : R}
    {index : Nat}
    {commands : List (Command R)}
    {branches last : List (Branch R n)}
    (success : enumerateFrom tolerance index branches commands = .ok last)
    {final : Branch R n}
    (member : final ∈ last) :
    ∃ trace, Trace tolerance index branches commands trace ∧
      trace commands.length = final := by
  induction commands generalizing index branches with
  | nil =>
      cases success
      exact ⟨fun _ => final, trace_nil tolerance index member, rfl⟩
  | cons command rest inductionHypothesis =>
      obtain ⟨groups, stepped, continued⟩ := bind_eq_ok success
      obtain ⟨trace, traces, ends⟩ := inductionHypothesis continued
      obtain ⟨reached, enumerates, present⟩ := traces.occurs 0 (Nat.zero_le _)
      cases enumerates
      obtain ⟨successors, listed, starts⟩ := List.mem_flatten.1 present
      obtain ⟨parent, inside, branched⟩ :=
        exists_mem_of_forall₂ (forall₂_of_mapM_eq_ok stepped).flip listed
      exact ⟨_, traces.cons stepped inside branched starts, ends⟩

section Trace

variable {measured : List Qubit} {branches : List (Branch R n)}
variable (recorded : ∀ branch ∈ branches, branch.run.Recorded measured)
variable {commands : List (Command R)} (legal : Command.AllLegal n measured commands)
variable {tolerance : R} {index : Nat} {trace : Nat → Branch R n}
include recorded legal

theorem Trace.recorded_take
    (traces : Trace tolerance index branches commands trace)
    {place : Nat}
    (inside : place ≤ commands.length) :
    (trace place).run.Recorded
      (measured ++ Command.measuredBy (commands.take place)) := by
  obtain ⟨reached, enumerates, present⟩ := traces.occurs place inside
  have safe := enumerateFrom_endsSafely recorded (legal.take place) tolerance index
  rw [enumerates] at safe
  exact safe _ present

/-- Along a trace, what is recorded stays recorded. -/
theorem Trace.continuedBy
    (traces : Trace tolerance index branches commands trace)
    {first second : Nat}
    (ordered : first ≤ second)
    (inside : second ≤ commands.length) :
    (trace first).run.outcome.ContinuedBy (trace second).run.outcome := by
  induction second, ordered using Nat.le_induction with
  | base => exact .refl _
  | succ place _ inductionHypothesis =>
      have there := List.getElem?_eq_getElem inside
      obtain ⟨successors, stepped, member⟩ := traces.successor place _ there
      have recordedHere := traces.recorded_take recorded legal (Nat.le_of_succ_le inside)
      exact (inductionHypothesis (Nat.le_of_succ_le inside)).trans
        (continuedBy_of_step_eq_ok recordedHere (legal.getElem there) stepped member)

end Trace

end Branch

/-! ## Programs -/

/-- An outcome that tells exactly what a pattern measures: it lists the measured qubits
in the order of their measurements, each with a bit, and has a value for them and for
no output. -/
structure Outcome.Faithful
    {R : Type}
    (pattern : Pattern R)
    (outcome : Outcome) : Prop where
  /-- The entries belong to the measured qubits, in measurement order. -/
  qubits_eq : outcome.bits.map Prod.fst = pattern.measured
  /-- The values are bits. -/
  value_eq : ∀ entry ∈ outcome.bits, entry.2 = 0 ∨ entry.2 = 1
  /-- Exactly the measured qubits have a value. -/
  isSome_iff : ∀ qubit, (outcome.bit? qubit).isSome ↔ qubit ∈ pattern.measured
  /-- No output has a value. -/
  output_eq : ∀ qubit ∈ pattern.outputs, outcome.bit? qubit = none

/-- A run that has recorded what a pattern measures ends with a faithful outcome. -/
theorem Run.Recorded.faithful
    {R : Type}
    {n : Nat}
    {pattern : Pattern R}
    {run : Run R n}
    (recorded : run.Recorded pattern.measured)
    (continued : Outcome.empty.ContinuedBy run.outcome) :
    run.outcome.Faithful pattern where
  qubits_eq := recorded.map_fst_outcome
  value_eq := continued.value_eq
  isSome_iff qubit := by rw [recorded.bit?_outcome, recorded.isSome_iff]
  output_eq qubit output := by
    rw [← Option.not_isSome_iff_eq_none, recorded.bit?_outcome, recorded.isSome_iff]
    exact (Pattern.mem_outputs.1 output).2

namespace Program

variable {R : Type} [Scalar R]

/-- The branches through which the enumeration of a program comes to one of its ends. -/
def LeadsTo
    (program : Program R)
    (tolerance : R)
    (trace : Nat → Branch R program.width)
    (last : Branch R program.width) : Prop :=
  ∃ run, Run.start program tolerance = .ok run ∧
    Branch.Trace tolerance 0 [⟨run, 1⟩] program.pattern.commands trace ∧
    trace program.pattern.commands.length = last

/-- A run starts with nothing recorded. -/
theorem outcome_of_start_eq_ok
    {program : Program R}
    {tolerance : R}
    {run : Run R program.width}
    (started : Run.start program tolerance = .ok run) :
    run.outcome = .empty :=
  Outcome.ext (List.map_eq_nil_iff.1 (recorded_of_start_eq_ok started).map_fst_outcome)

section Shot

variable {G : Type} [DrawSource G R]

/-- The outcome of a shot is faithful, and every command of the shot has read its
signals as this outcome shows them. -/
theorem faithful_of_shoot_eq_ok
    {program : Program R}
    {tolerance : R}
    {source rest : G}
    {outcome : Outcome}
    (success : program.shoot tolerance source = .ok (outcome, rest)) :
    outcome.Faithful program.pattern ∧
    ∀ index command, program.pattern.commands[index]? = some command →
      ∃ run after, program.runBefore tolerance source index = .ok (run, after) ∧
        run.ReadsAs outcome command := by
  rw [shoot_eq_bind_runBefore] at success
  obtain ⟨⟨final, _⟩, reached, same⟩ := bind_eq_ok success
  cases same
  have whole := program.runBefore_endsSafely tolerance source
    program.pattern.commands.length
  rw [reached, List.take_length] at whole
  obtain ⟨run, started, shot⟩ := bind_eq_ok reached
  rw [List.take_length] at shot
  have nothing := recorded_of_start_eq_ok started
  refine ⟨Run.Recorded.faithful whole ?_, fun index command there => ?_⟩
  · rw [← outcome_of_start_eq_ok started]
    exact Run.continuedBy_of_shootFrom_eq_ok nothing program.lawful.legal shot
  · -- The shot is cut at the position of the command.
    rw [← List.take_append_drop index program.pattern.commands,
      Run.shootFrom_append] at shot
    obtain ⟨⟨before, after⟩, shotBefore, continued⟩ := bind_eq_ok shot
    have recorded := Run.shootFrom_endsSafely nothing (program.allLegal_take index)
      tolerance 0 source
    rw [shotBefore] at recorded
    have legal := program.lawful.legal
    rw [← List.take_append_drop index program.pattern.commands,
      Command.allLegal_append] at legal
    refine ⟨before, after, ?_, Run.Recorded.readsAs recorded
      (program.legal_getElem there)
      (Run.continuedBy_of_shootFrom_eq_ok recorded legal.2 continued)⟩
    rw [runBefore, started, ok_bind, shotBefore]

end Shot

/-- The outcome of a branch is faithful, and every command on the way to the branch has
read its signals as this outcome shows them. -/
theorem faithful_of_mem_branches
    {program : Program R}
    {tolerance : R}
    {branches : List (Branch R program.width)}
    (success : program.branches tolerance = .ok branches)
    {branch : Branch R program.width}
    (member : branch ∈ branches) :
    branch.run.outcome.Faithful program.pattern ∧
    ∃ trace, program.LeadsTo tolerance trace branch ∧
      ∀ index command, program.pattern.commands[index]? = some command →
        (trace index).run.ReadsAs branch.run.outcome command := by
  have last := recorded_of_branches_eq_ok success branch member
  obtain ⟨run, started, enumerated⟩ := bind_eq_ok success
  have legal := program.lawful.legal
  have nothing := recorded_singleton_of_start_eq_ok started
  obtain ⟨trace, traces, ends⟩ := Branch.exists_trace_to enumerated member
  refine ⟨?_, trace, ⟨run, started, traces, ends⟩, fun index command there => ?_⟩
  · refine last.faithful ?_
    obtain ⟨_, enumerates, first⟩ := traces.occurs 0 (Nat.zero_le _)
    cases enumerates
    rw [← outcome_of_start_eq_ok started, ← ends]
    rw [List.mem_singleton] at first
    have continued := traces.continuedBy nothing legal (Nat.zero_le _) (Nat.le_refl _)
    rwa [first] at continued
  · have inside := (List.getElem?_eq_some_iff.1 there).1
    refine (traces.recorded_take nothing legal inside.le).readsAs
      (program.legal_getElem there) ?_
    rw [← ends]
    exact traces.continuedBy nothing legal inside.le (Nat.le_refl _)

/-- The entries of the distribution are those of the branches: none is added to
another one. -/
theorem entries_perm_of_enumerate_eq_ok
    {program : Program R}
    {tolerance : R}
    {distribution : Distribution R}
    (success : program.enumerate tolerance = .ok distribution) :
    ∃ branches, program.branches tolerance = .ok branches ∧
      (branches.map fun branch => branch.run.outcome).Nodup ∧
      branches.length ≤ 2 ^ program.pattern.measured.length ∧
      distribution.entries.Perm
        (branches.map fun branch => (branch.run.outcome, 0 + branch.probability)) := by
  rw [enumerate_eq_tally] at success
  obtain ⟨branches, reached, counted⟩ := bind_eq_ok success
  obtain ⟨_, _, same⟩ := bind_eq_ok counted
  obtain ⟨run, started, enumerated⟩ := bind_eq_ok reached
  have nodup := Branch.nodup_outcome_enumerateFrom
    (recorded_singleton_of_start_eq_ok started) program.lawful.legal enumerated
    (List.nodup_singleton _)
  refine ⟨branches, reached, nodup, ?_, ?_⟩
  · have bound := Branch.length_le_of_enumerateFrom_eq_ok enumerated
    rwa [List.length_singleton, Nat.one_mul] at bound
  · have distinct : ((branches.map fun branch =>
        (branch.run.outcome, branch.probability)).map Prod.fst).Nodup := by
      rwa [List.map_map]
    have recorded := Tally.entries_recordAll_perm Tally.empty distinct
      fun _ _ => List.not_mem_nil
    rw [List.map_map] at recorded
    rw [← Except.ok.inj same]
    exact recorded

/-- Outcomes are faithful records, whatever the arithmetic is: they list
exactly the measured qubits in their order, each with a bit, and every
parity that a command has read is the one under these bits. -/
theorem outcomes_faithful
    {G : Type}
    [DrawSource G R]
    (program : Program R)
    (tolerance : R) :
    program.pattern.measured.Nodup ∧
    program.pattern.measured.length + program.pattern.outputs.length = program.width ∧
    (∀ (source rest : G) (outcome : Outcome),
      program.shoot tolerance source = .ok (outcome, rest) →
        outcome.Faithful program.pattern ∧
        ∀ index command, program.pattern.commands[index]? = some command →
          ∃ run after, program.runBefore tolerance source index = .ok (run, after) ∧
            run.ReadsAs outcome command) ∧
    ∀ distribution, program.enumerate tolerance = .ok distribution →
      (∀ outcome ∈ distribution.keys, outcome.Faithful program.pattern) ∧
      ∃ branches, program.branches tolerance = .ok branches ∧
        (branches.map fun branch => branch.run.outcome).Nodup ∧
        branches.length ≤ 2 ^ program.pattern.measured.length ∧
        distribution.entries.Perm (branches.map fun branch =>
          (branch.run.outcome, 0 + branch.probability)) ∧
        ∀ branch ∈ branches, ∃ trace, program.LeadsTo tolerance trace branch ∧
          ∀ index command, program.pattern.commands[index]? = some command →
            (trace index).run.ReadsAs branch.run.outcome command := by
  refine ⟨program.lawful.nodup_measuredBy, program.lawful.length_measured_add_outputs,
    fun source rest outcome => faithful_of_shoot_eq_ok,
    fun distribution success => ?_⟩
  obtain ⟨branches, reached, nodup, bound, entries⟩ :=
    entries_perm_of_enumerate_eq_ok success
  refine ⟨fun outcome member => ?_, branches, reached, nodup, bound, entries,
    fun branch inside => (faithful_of_mem_branches reached inside).2⟩
  obtain ⟨entry, there, rfl⟩ := List.mem_map.1 member
  obtain ⟨branch, inside, rfl⟩ := List.mem_map.1 (entries.mem_iff.1 there)
  exact (faithful_of_mem_branches reached inside).1

/-- The second measurement reads the first outcome. -/
theorem outcomes_faithful_adaptive :
    (∀ draws : Stream' ℝ, ∃ outcome rest run after,
      adaptive.shoot 1 draws = .ok (outcome, rest) ∧
      outcome.Faithful adaptive.pattern ∧
      adaptive.runBefore 1 draws 3 = .ok (run, after) ∧
      run.ReadsAs outcome (.measure 1 1 [0] [0])) ∧
    ∃ distribution branches,
      adaptive.enumerate 1 = .ok distribution ∧
      adaptive.branches 1 = .ok branches ∧
      branches.length ≤ 4 ∧
      ∀ branch ∈ branches, ∃ trace, adaptive.LeadsTo 1 trace branch ∧
        (trace 3).run.ReadsAs branch.run.outcome (.measure 1 1 [0] [0]) := by
  obtain ⟨_, _, shots, exact⟩ := outcomes_faithful (G := Stream' ℝ) adaptive 1
  refine ⟨fun draws => ?_, ?_⟩
  · obtain ⟨_, _, _, shot⟩ := adaptive.exists_shoot_eq_ok zero_le_one draws
    obtain ⟨faithful, reads⟩ := shots _ _ _ shot
    obtain ⟨run, after, reached, read⟩ := reads 3 _ rfl
    exact ⟨_, _, run, after, shot, faithful, reached, read⟩
  · have success := adaptive.enumerate_eq_ok_of_one_le le_rfl
    obtain ⟨_, branches, reached, _, bound, _, leads⟩ := exact _ success
    refine ⟨_, branches, success, reached, bound, fun branch member => ?_⟩
    obtain ⟨trace, comes, reads⟩ := leads branch member
    exact ⟨trace, comes, reads 3 _ rfl⟩

end Program

end MeasurementCalculus
