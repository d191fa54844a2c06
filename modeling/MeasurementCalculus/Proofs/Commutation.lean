import MeasurementCalculus.Proofs.Floor

/-!
# Independent commands commute

Two commands are independent if they act on different qubits and neither of
them reads the outcome that the other one records. Exchanging them keeps the
check and the wave along every path. For two measurements only the product of
their conditional probabilities is the same, so one of the factors may fall
below the floor in one order and not in the other.
-/

namespace MeasurementCalculus

/-! ## Exchange of neighbours -/

/-- Exchange the member at a position with the one after it, if there are both. -/
def transposeAt {α : Type} : Nat → List α → List α
  | 0, first :: second :: rest => second :: first :: rest
  | index + 1, head :: rest => head :: transposeAt index rest
  | _, members => members

theorem transposeAt_append
    {α : Type}
    (before : List α)
    (first second : α)
    (rest : List α) :
    transposeAt before.length (before ++ first :: second :: rest) =
      before ++ second :: first :: rest := by
  induction before with
  | nil => rfl
  | cons head tail inductionHypothesis =>
      rw [List.cons_append, List.length_cons, transposeAt, inductionHypothesis]
      rfl

/-- Exchange the entry at a position with the one after it. -/
def Outcome.exchangeAt
    (index : Nat)
    (outcome : Outcome) : Outcome :=
  ⟨transposeAt index outcome.bits⟩

theorem Outcome.along_exchange
    (bits : Qubit → Bool)
    (before : List Qubit)
    (first second : Qubit)
    (rest : List Qubit) :
    along bits (before ++ second :: first :: rest) =
      (along bits (before ++ first :: second :: rest)).exchangeAt before.length := by
  apply Outcome.ext
  simp only [along, exchangeAt, List.map_append, List.map_cons]
  rw [← List.length_map fun qubit => (qubit, (bits qubit).toUInt8), transposeAt_append]

/-- Exchange the command at a position with the one after it. -/
def Pattern.exchangeAt
    {R : Type}
    (index : Nat)
    (pattern : Pattern R) : Pattern R :=
  { pattern with commands := transposeAt index pattern.commands }

namespace Command

variable {R : Type}

theorem isMeasure_eq_isSome (command : Command R) :
    command.isMeasure = command.measured?.isSome := by
  cases command with
  | measure qubit angle s t => rfl
  | entangle first second => rfl
  | correctX qubit signals => rfl
  | correctZ qubit signals => rfl

theorem mem_targets_of_measured?
    {command : Command R}
    {qubit : Qubit}
    (measured : qubit ∈ command.measured?) :
    qubit ∈ command.targets := by
  rcases command.measured?_eq_none_or with noMeasure | ⟨target, angle, s, t, rfl⟩
  · rw [noMeasure] at measured
    cases measured
  · rw [← Option.some.inj measured]
    exact List.mem_singleton_self target

/-- Commands that act on different qubits and do not read each other's outcomes. -/
structure Independent (first second : Command R) : Prop where
  /-- The commands act on different qubits. -/
  disjoint : first.targets.Disjoint second.targets
  /-- The first command does not read the outcome of the second one. -/
  first_unread : ∀ qubit ∈ second.measured?, qubit ∉ first.signals
  /-- The second command does not read the outcome of the first one. -/
  second_unread : ∀ qubit ∈ first.measured?, qubit ∉ second.signals

namespace Independent

variable {first second : Command R}

/-- A command that is legal before an independent one is legal after it. -/
theorem legal_after
    (independent : first.Independent second)
    {width : Nat}
    {measured : List Qubit}
    (legal : first.Legal width measured) :
    first.Legal width (second.measuredAfter measured) where
  target_lt := legal.target_lt
  target_notMem target member inside := by
    rcases List.mem_append.1 inside with earlier | other
    · exact legal.target_notMem target member earlier
    · exact independent.disjoint member
        (mem_targets_of_measured? (Option.mem_toList.1 other))
  targets_nodup := legal.targets_nodup
  signal_mem signal member :=
    List.mem_append_left _ (legal.signal_mem signal member)

/-- A command that is legal after an independent one is legal before it. -/
theorem legal_before
    (independent : first.Independent second)
    {width : Nat}
    {measured : List Qubit}
    (legal : second.Legal width (first.measuredAfter measured)) :
    second.Legal width measured where
  target_lt := legal.target_lt
  target_notMem target member inside :=
    legal.target_notMem target member (List.mem_append_left _ inside)
  targets_nodup := legal.targets_nodup
  signal_mem signal member := by
    rcases List.mem_append.1 (legal.signal_mem signal member) with earlier | other
    · exact earlier
    · exact absurd member (independent.second_unread signal (Option.mem_toList.1 other))

/-- Independent commands are legal in either order. -/
theorem allLegal_exchange
    (independent : first.Independent second)
    {width : Nat}
    {measured : List Qubit}
    {rest : List (Command R)}
    (legal : AllLegal width measured (first :: second :: rest)) :
    AllLegal width measured (second :: first :: rest) := by
  obtain ⟨legalFirst, legalSecond, legalRest⟩ := legal
  have same (qubit : Qubit) :
      qubit ∈ first.measuredAfter (second.measuredAfter measured) ↔
        qubit ∈ second.measuredAfter (first.measuredAfter measured) := by
    simp only [measuredAfter, List.mem_append]
    exact or_right_comm
  exact ⟨independent.legal_before legalSecond, independent.legal_after legalFirst,
    legalRest.of_subset (fun qubit => (same qubit).1)
      fun _ _ signal _ => (same signal).2⟩

end Independent

end Command

namespace Pattern

variable {R : Type} {pattern : Pattern R} {index : Nat} {first second : Command R}

/-- Independent commands that stand at a position and after it. -/
structure IndependentAt
    (index : Nat)
    (first second : Command R)
    (pattern : Pattern R) : Prop where
  /-- The first command stands at the position. -/
  first_there : pattern.commands[index]? = some first
  /-- The second command stands after it. -/
  second_there : pattern.commands[index + 1]? = some second
  /-- The commands are independent. -/
  independent : first.Independent second

/-- The commands around the position before and after the exchange. -/
theorem IndependentAt.commands_eq
    (neighbours : pattern.IndependentAt index first second) :
    ∃ before rest,
      pattern.commands.take index = before ∧
      pattern.commands = before ++ ([first, second] ++ rest) ∧
      (pattern.exchangeAt index).commands = before ++ ([second, first] ++ rest) := by
  obtain ⟨inside, firstValue⟩ := List.getElem?_eq_some_iff.1 neighbours.first_there
  obtain ⟨next, secondValue⟩ := List.getElem?_eq_some_iff.1 neighbours.second_there
  have split : pattern.commands = pattern.commands.take index ++
      first :: second :: pattern.commands.drop (index + 1 + 1) := by
    rw [← firstValue, ← secondValue, ← List.drop_eq_getElem_cons next,
      ← List.drop_eq_getElem_cons inside, List.take_append_drop]
  have exchanged := transposeAt_append (pattern.commands.take index) first second
    (pattern.commands.drop (index + 1 + 1))
  rw [← split, List.length_take_of_le inside.le] at exchanged
  exact ⟨_, _, rfl, split, exchanged⟩

/-- The exchange of independent commands keeps a pattern well-formed. -/
theorem IndependentAt.check_exchangeAt
    (neighbours : pattern.IndependentAt index first second)
    {width : Nat}
    (accepted : pattern.check = .ok width) :
    (pattern.exchangeAt index).check = .ok width := by
  rw [check_eq_ok_iff] at accepted ⊢
  refine ⟨accepted.declared_nodup, accepted.prepared_eq, ?_⟩
  obtain ⟨before, rest, _, split, exchanged⟩ := neighbours.commands_eq
  have legal := accepted.legal
  rw [split, Command.allLegal_append] at legal
  rw [exchanged, Command.allLegal_append]
  exact ⟨legal.1, neighbours.independent.allLegal_exchange legal.2⟩

end Pattern

/-- The program in which two independent neighbours are exchanged. -/
def Program.exchange
    {R : Type}
    (program : Program R)
    {index : Nat}
    {first second : Command R}
    (neighbours : program.pattern.IndependentAt index first second) : Program R where
  pattern := program.pattern.exchangeAt index
  width := program.width
  accepted := neighbours.check_exchangeAt program.accepted

/-! ## Paths of the exchanged program -/

namespace Wave

variable {n : Nat} {first second : Command ℝ}

/-- Along a path, commands on different qubits commute. -/
theorem act_comm
    (bits : Qubit → Bool)
    (disjoint : first.targets.Disjoint second.targets)
    (wave : Wave n) :
    act bits second (act bits first wave) = act bits first (act bits second wave) := by
  have apart (qubit : Qubit) (member : qubit ∈ second.targets) :
      qubit ∉ first.targets := fun other => disjoint other member
  cases second with
  | measure qubit angle s t => exact (act_gateAt bits (apart qubit (by simp)) _ wave).symm
  | correctX qubit signals => exact (act_gateAt bits (apart qubit (by simp)) _ wave).symm
  | correctZ qubit signals => exact (act_gateAt bits (apart qubit (by simp)) _ wave).symm
  | entangle one other =>
      cases first with
      | entangle third fourth => exact controlledZAt_comm one other third fourth wave
      | measure qubit angle s t => exact act_gateAt bits (disjoint (by simp)) _ wave
      | correctX qubit signals => exact act_gateAt bits (disjoint (by simp)) _ wave
      | correctZ qubit signals => exact act_gateAt bits (disjoint (by simp)) _ wave

/-- Commands with the same measurement, if any, and the same action have the same
conditional probability, if any. -/
theorem conditionals_congr
    {bits : Qubit → Bool}
    {commands others : List (Command ℝ)}
    {measured? : Option Qubit}
    (measuredCommands : Command.measuredBy commands = measured?.toList)
    (measuredOthers : Command.measuredBy others = measured?.toList)
    {wave : Wave n}
    (same : follow bits commands wave = follow bits others wave) :
    conditionals bits commands wave = conditionals bits others wave := by
  cases measured? with
  | none =>
      rw [(normSq_follow bits measuredCommands wave).2,
        (normSq_follow bits measuredOthers wave).2]
  | some qubit =>
      rw [conditionals_eq_singleton bits measuredCommands,
        conditionals_eq_singleton bits measuredOthers, same]

end Wave

/-- Commands that measure the same qubits in the same order and act alike along every
path have the same branches. -/
theorem Branch.kept_congr
    {n : Nat}
    {initial : Wave n}
    {commands others : List (Command ℝ)}
    (measured : Command.measuredBy commands = Command.measuredBy others)
    (follow : ∀ bits, Wave.follow bits commands initial =
      Wave.follow bits others initial)
    (conditionals : ∀ bits, Wave.conditionals bits commands initial =
      Wave.conditionals bits others initial) :
    kept initial commands = kept initial others := by
  have sameKept (bits : Qubit → Bool) :
      Wave.Kept bits commands initial ↔ Wave.Kept bits others initial := by
    rw [Wave.Kept, conditionals, Wave.Kept]
  have sameAlong : along initial commands = along initial others := by
    funext bits
    rw [along, along, measured, follow]
  unfold kept
  rw [measured, sameAlong]
  simp only [sameKept]

/-- Commands that cannot be told from others along any path: they measure the same
qubits, act alike on every wave and have the same conditional probabilities. -/
structure Command.ActsLike
    (n : Nat)
    (commands others : List (Command ℝ)) : Prop where
  /-- The same qubits are measured in the same order. -/
  measuredBy_eq : measuredBy commands = measuredBy others
  /-- Every wave is taken to the same wave. -/
  follow_eq : ∀ (bits : Qubit → Bool) (wave : Wave n),
    Wave.follow bits commands wave = Wave.follow bits others wave
  /-- The measurements have the same conditional probabilities. -/
  conditionals_eq : ∀ (bits : Qubit → Bool) (wave : Wave n),
    Wave.conditionals bits commands wave = Wave.conditionals bits others wave

namespace Command.ActsLike

variable {n : Nat} {commands others : List (Command ℝ)}

/-- If there is at most one measurement, it is enough that the commands have the same
action. -/
theorem of_follow_eq
    {measured? : Option Qubit}
    (measuredCommands : measuredBy commands = measured?.toList)
    (measuredOthers : measuredBy others = measured?.toList)
    (same : ∀ (bits : Qubit → Bool) (wave : Wave n),
      Wave.follow bits commands wave = Wave.follow bits others wave) :
    ActsLike n commands others where
  measuredBy_eq := measuredCommands.trans measuredOthers.symm
  follow_eq := same
  conditionals_eq bits wave :=
    Wave.conditionals_congr measuredCommands measuredOthers (same bits wave)

/-- What stands before and after the commands does not matter. -/
theorem in_context
    (alike : ActsLike n commands others)
    (before rest : List (Command ℝ)) :
    ActsLike n (before ++ (commands ++ rest)) (before ++ (others ++ rest)) where
  measuredBy_eq := by
    simp only [measuredBy_append, alike.measuredBy_eq]
  follow_eq bits wave := by
    simp only [Wave.follow_append, alike.follow_eq]
  conditionals_eq bits wave := by
    simp only [Wave.conditionals_append, alike.conditionals_eq, alike.follow_eq]

theorem kept_eq
    (alike : ActsLike n commands others)
    (initial : Wave n) :
    Branch.kept initial commands = Branch.kept initial others :=
  Branch.kept_congr alike.measuredBy_eq (fun bits => alike.follow_eq bits initial)
    fun bits => alike.conditionals_eq bits initial

end Command.ActsLike

namespace Program

variable {program : Program ℝ} {index : Nat} {first second : Command ℝ}

/-- Exchanging independent commands does not change the wave at the end of a path. -/
theorem follow_exchange
    (neighbours : program.pattern.IndependentAt index first second)
    (bits : Qubit → Bool)
    {n : Nat}
    (wave : Wave n) :
    Wave.follow bits (program.exchange neighbours).pattern.commands wave =
      Wave.follow bits program.pattern.commands wave := by
  obtain ⟨before, rest, _, split, exchanged⟩ := neighbours.commands_eq
  change Wave.follow bits (program.pattern.exchangeAt index).commands wave = _
  rw [split, exchanged]
  simp only [Wave.follow_append, Wave.follow_cons, Wave.follow_nil,
    Wave.act_comm bits neighbours.independent.disjoint]

/-- Exchanging independent commands of which at most one is a measurement keeps the
branches. -/
theorem kept_exchange
    (neighbours : program.pattern.IndependentAt index first second)
    (single : first.measured? = none ∨ second.measured? = none)
    {n : Nat}
    (initial : Wave n) :
    Branch.kept initial (program.exchange neighbours).pattern.commands =
      Branch.kept initial program.pattern.commands := by
  obtain ⟨before, rest, _, split, exchanged⟩ := neighbours.commands_eq
  have measured : Command.measuredBy [second, first] =
      (first.measured?.or second.measured?).toList ∧
      Command.measuredBy [first, second] =
        (first.measured?.or second.measured?).toList := by
    rcases single with none | none
    · simp [none]
    · simp [none]
  have alike : Command.ActsLike n [second, first] [first, second] :=
    .of_follow_eq measured.1 measured.2 fun bits wave =>
      (Wave.act_comm bits neighbours.independent.disjoint wave).symm
  change Branch.kept initial (program.pattern.exchangeAt index).commands = _
  rw [split, exchanged]
  exact (alike.in_context before rest).kept_eq initial

/-- The measured qubits around two measurements, before and after the exchange. -/
theorem measured_exchange
    (neighbours : program.pattern.IndependentAt index first second)
    {one other : Qubit}
    (firstMeasures : first.measured? = some one)
    (secondMeasures : second.measured? = some other) :
    ∃ before rest,
      Command.measuredBy (program.pattern.commands.take index) = before ∧
      program.pattern.measured = before ++ one :: other :: rest ∧
      (program.exchange neighbours).pattern.measured =
        before ++ other :: one :: rest := by
  obtain ⟨before, rest, prefixed, split, exchanged⟩ := neighbours.commands_eq
  refine ⟨Command.measuredBy before, Command.measuredBy rest, by rw [prefixed], ?_, ?_⟩
  · change Command.measuredBy program.pattern.commands = _
    rw [split]
    simp [firstMeasures, secondMeasures]
  · change Command.measuredBy (program.pattern.exchangeAt index).commands = _
    rw [exchanged]
    simp [firstMeasures, secondMeasures]

/-- If both programs are clear of the floor, exchanging independent measurements
exchanges their entries in every outcome. -/
theorem renames_exchange
    (neighbours : program.pattern.IndependentAt index first second)
    {one other : Qubit}
    (firstMeasures : first.measured? = some one)
    (secondMeasures : second.measured? = some other)
    {tolerance : ℝ}
    (nonneg : 0 ≤ tolerance)
    (clear : program.ClearOfFloor tolerance)
    (exchangedClear : (program.exchange neighbours).ClearOfFloor tolerance) :
    program.pathDistribution.Renames
      (Outcome.exchangeAt
        (Command.measuredBy (program.pattern.commands.take index)).length)
      (program.exchange neighbours).pathDistribution := by
  obtain ⟨before, rest, prefixed, measured, exchanged⟩ :=
    measured_exchange neighbours firstMeasures secondMeasures
  rw [prefixed]
  refine renames_pathDistribution id ?_ (fun bits => ?_) (fun bits => ?_)
    fun bits => ?_
  · rw [List.map_id, measured, exchanged]
    refine choices_perm ?_ ((List.Perm.swap _ _ _).append_left _)
    rw [← exchanged]
    exact (program.exchange neighbours).lawful.nodup_measuredBy
  · have first := clear.kept_iff nonneg bits
    have second := exchangedClear.kept_iff nonneg bits
    rw [follow_exchange neighbours] at second
    exact second.trans first.symm
  · exact congrArg Wave.normSq (follow_exchange neighbours bits _)
  · rw [measured, exchanged]
    exact Outcome.along_exchange bits before one other rest

/-- Independent neighbouring commands can be exchanged without any change of the
branches. If both are measurements and both programs are clear of the floor,
outcomes keep their probabilities when their entries are exchanged. -/
theorem independent_commands_commute :
    (∀ (R : Type) (pattern : Pattern R) (width index : Nat) (first second : Command R),
      pattern.check = .ok width →
        pattern.IndependentAt index first second →
          (pattern.exchangeAt index).check = .ok width) ∧
    ∀ (program : Program ℝ) (index : Nat) (first second : Command ℝ)
      (neighbours : program.pattern.IndependentAt index first second) (tolerance : ℝ),
      0 ≤ tolerance →
        (¬(first.isMeasure ∧ second.isMeasure) →
          (∃ branches, program.branches tolerance = .ok branches ∧
            (program.exchange neighbours).branches tolerance = .ok branches) ∧
          (program.exchange neighbours).enumerate tolerance =
            program.enumerate tolerance) ∧
        (first.isMeasure → second.isMeasure → program.ClearOfFloor tolerance →
          (program.exchange neighbours).ClearOfFloor tolerance →
            ∃ distribution exchanged,
              program.enumerate tolerance = .ok distribution ∧
              (program.exchange neighbours).enumerate tolerance = .ok exchanged ∧
              distribution.Renames
                (Outcome.exchangeAt (Command.measuredBy
                  (program.pattern.commands.take index)).length) exchanged) := by
  refine ⟨fun R pattern width index first second accepted neighbours =>
      neighbours.check_exchangeAt accepted,
    fun program index first second neighbours tolerance nonneg => ⟨fun single => ?_,
      fun firstMeasures secondMeasures clear exchangedClear => ?_⟩⟩
  · rw [Command.isMeasure_eq_isSome, Command.isMeasure_eq_isSome, not_and_or,
      Option.not_isSome_iff_eq_none, Option.not_isSome_iff_eq_none] at single
    have branches : (program.exchange neighbours).branches tolerance =
        program.branches tolerance := by
      rw [branches_eq_ok _ nonneg, branches_eq_ok _ nonneg]
      exact congrArg Except.ok (kept_exchange neighbours single _)
    refine ⟨⟨_, program.branches_eq_ok nonneg, ?_⟩, ?_⟩
    · exact branches.trans (program.branches_eq_ok nonneg)
    · unfold enumerate
      rw [branches]
      rfl
  · rw [Command.isMeasure_eq_isSome] at firstMeasures secondMeasures
    obtain ⟨one, measuresOne⟩ := Option.isSome_iff_exists.1 firstMeasures
    obtain ⟨other, measuresOther⟩ := Option.isSome_iff_exists.1 secondMeasures
    exact ⟨_, _, clear.enumerate_eq_ok nonneg, exchangedClear.enumerate_eq_ok nonneg,
      renames_exchange neighbours measuresOne measuresOther nonneg clear exchangedClear⟩

/-- The two measurements can be exchanged with each other, and the first one with the
entanglement before it. -/
theorem independent_commands_commute_fair :
    (∃ neighbours : fair.pattern.IndependentAt 1 (.entangle 1 2) (.measure 0 1 [] []),
      (fair.exchange neighbours).enumerate 0 = fair.enumerate 0) ∧
    ∃ neighbours : fair.pattern.IndependentAt 2 (.measure 0 1 [] []) (.measure 1 (-1) [] []),
      (fair.pattern.exchangeAt 2).check = .ok 3 ∧
      ∃ distribution exchanged,
        fair.enumerate 0 = .ok distribution ∧
        (fair.exchange neighbours).enumerate 0 = .ok exchanged ∧
        distribution.Renames (Outcome.exchangeAt 0) exchanged := by
  have entanglement :
      fair.pattern.IndependentAt 1 (.entangle 1 2) (.measure 0 1 [] []) :=
    ⟨rfl, rfl, by simp, by simp, by simp⟩
  have measurements :
      fair.pattern.IndependentAt 2 (.measure 0 1 [] []) (.measure 1 (-1) [] []) :=
    ⟨rfl, rfl, by simp, by simp, by simp⟩
  have exchangedClear : (fair.exchange measurements).ClearOfFloor 0 := by
    have measured : (fair.exchange measurements).pattern.measured = [1, 0] := rfl
    refine clearOfFloor_of_unset ?_ ?_ le_rfl
    · rw [measured]
      simp [exchange, Pattern.exchangeAt, fair, Pattern.declared]
    · rw [measured]
      simp [exchange, Pattern.exchangeAt, fair, transposeAt]
  obtain ⟨accepted, commute⟩ := independent_commands_commute
  refine ⟨⟨entanglement, ?_⟩, measurements, accepted ℝ _ _ _ _ _ fair.accepted
    measurements, ?_⟩
  · exact ((commute fair 1 _ _ entanglement 0 le_rfl).1 (by simp [Command.isMeasure])).2
  · exact (commute fair 2 _ _ measurements 0 le_rfl).2 rfl rfl
      (clearOfFloor_fair le_rfl) exchangedClear

end Program

end MeasurementCalculus
