import MeasurementCalculus.Proofs.Draws

/-!
# Qubit numbers are only names

The qubits below the width can be given other numbers. The register then lists
its amplitudes in another order, and every qubit has another place in the
basis states. A wave gives amplitudes to assignments of digits, so renumbering
composes it with a permutation of the assignments, and nothing else changes.
-/

namespace MeasurementCalculus

open Function (update)

/-! ## New numbers -/

namespace Qubit

variable {n : Nat}

/-- The new number of a qubit under a permutation of the numbers below `n`. -/
def relabel
    (permutation : Equiv.Perm (Fin n))
    (qubit : Qubit) : Qubit :=
  if inside : qubit < n then (permutation ⟨qubit, inside⟩).val else qubit

@[simp] theorem relabel_val
    (permutation : Equiv.Perm (Fin n))
    (qubit : Fin n) :
    relabel permutation qubit.val = (permutation qubit).val :=
  dif_pos qubit.isLt

theorem relabel_of_le
    (permutation : Equiv.Perm (Fin n))
    {qubit : Qubit}
    (outside : ¬qubit < n) :
    relabel permutation qubit = qubit :=
  dif_neg outside

@[simp] theorem relabel_lt_iff
    (permutation : Equiv.Perm (Fin n))
    (qubit : Qubit) :
    relabel permutation qubit < n ↔ qubit < n := by
  by_cases inside : qubit < n
  · lift qubit to Fin n using inside
    simp
  · rw [relabel_of_le permutation inside]

@[simp] theorem relabel_symm_relabel
    (permutation : Equiv.Perm (Fin n))
    (qubit : Qubit) :
    relabel permutation.symm (relabel permutation qubit) = qubit := by
  by_cases inside : qubit < n
  · lift qubit to Fin n using inside
    rw [relabel_val, relabel_val, Equiv.symm_apply_apply]
  · rw [relabel_of_le permutation inside, relabel_of_le permutation.symm inside]

/-- Different qubits get different numbers. -/
theorem relabel_injective (permutation : Equiv.Perm (Fin n)) :
    Function.Injective (relabel permutation) :=
  Function.LeftInverse.injective (relabel_symm_relabel permutation)

theorem lookup_relabel
    {α : Type}
    (permutation : Equiv.Perm (Fin n))
    (qubit : Qubit)
    (entries : List (Qubit × α)) :
    (entries.map fun entry => (entry.1.relabel permutation, entry.2)).lookup
        (qubit.relabel permutation) =
      entries.lookup qubit := by
  induction entries with
  | nil => rfl
  | cons head tail inductionHypothesis =>
      rw [List.map_cons, List.lookup_cons, List.lookup_cons, inductionHypothesis]
      by_cases same : qubit = head.1
      · rw [same, beq_self_eq_true, beq_self_eq_true]
      · rw [beq_false_of_ne same,
          beq_false_of_ne ((relabel_injective permutation).ne same)]

end Qubit

section Relabel

variable {R : Type} {n : Nat}

/-- Renumber the qubits of a command. -/
def Command.relabel
    (permutation : Equiv.Perm (Fin n)) : Command R → Command R
  | .entangle first second => .entangle (first.relabel permutation)
      (second.relabel permutation)
  | .measure qubit angle s t => .measure (qubit.relabel permutation) angle
      (s.map (Qubit.relabel permutation)) (t.map (Qubit.relabel permutation))
  | .correctX qubit signals => .correctX (qubit.relabel permutation)
      (signals.map (Qubit.relabel permutation))
  | .correctZ qubit signals => .correctZ (qubit.relabel permutation)
      (signals.map (Qubit.relabel permutation))

/-- Renumber the qubits of a preparation. -/
def Preparation.relabel
    (permutation : Equiv.Perm (Fin n)) : Preparation R → Preparation R
  | .input qubit ket => .input (qubit.relabel permutation) ket
  | .ancillas qubits => .ancillas (qubits.map (Qubit.relabel permutation))

/-- Renumber the qubits of a pattern. -/
def Pattern.relabel
    (permutation : Equiv.Perm (Fin n))
    (pattern : Pattern R) : Pattern R where
  preparations := pattern.preparations.map (Preparation.relabel permutation)
  commands := pattern.commands.map (Command.relabel permutation)

/-- Renumber the qubits of an outcome. -/
def Outcome.relabel
    (permutation : Equiv.Perm (Fin n))
    (outcome : Outcome) : Outcome :=
  ⟨outcome.bits.map fun entry => (entry.1.relabel permutation, entry.2)⟩

end Relabel

/-! ## Well-formedness -/

namespace Command

variable {R : Type} {n : Nat}

theorem targets_relabel
    (permutation : Equiv.Perm (Fin n))
    (command : Command R) :
    (command.relabel permutation).targets =
      command.targets.map (Qubit.relabel permutation) := by
  cases command with
  | measure qubit angle s t => rfl
  | entangle first second => rfl
  | correctX qubit signals => rfl
  | correctZ qubit signals => rfl

theorem signals_relabel
    (permutation : Equiv.Perm (Fin n))
    (command : Command R) :
    (command.relabel permutation).signals =
      command.signals.map (Qubit.relabel permutation) := by
  cases command with
  | measure qubit angle s t => exact List.map_append.symm
  | entangle first second => rfl
  | correctX qubit signals => rfl
  | correctZ qubit signals => rfl

theorem measured?_relabel
    (permutation : Equiv.Perm (Fin n))
    (command : Command R) :
    (command.relabel permutation).measured? =
      command.measured?.map (Qubit.relabel permutation) := by
  cases command with
  | measure qubit angle s t => rfl
  | entangle first second => rfl
  | correctX qubit signals => rfl
  | correctZ qubit signals => rfl

theorem measuredBy_relabel
    (permutation : Equiv.Perm (Fin n))
    (commands : List (Command R)) :
    measuredBy (commands.map (relabel permutation)) =
      (measuredBy commands).map (Qubit.relabel permutation) := by
  induction commands with
  | nil => rfl
  | cons command rest inductionHypothesis =>
      rw [List.map_cons, measuredBy_cons, measuredBy_cons, inductionHypothesis,
        measured?_relabel, List.map_append, Option.toList_map]

/-- A renumbered command is legal after the renumbered measurements. -/
theorem Legal.relabel
    (permutation : Equiv.Perm (Fin n))
    {measured : List Qubit}
    {command : Command R}
    (legal : command.Legal n measured) :
    (command.relabel permutation).Legal n
      (measured.map (Qubit.relabel permutation)) where
  target_lt target member := by
    rw [targets_relabel, List.mem_map] at member
    obtain ⟨old, there, rfl⟩ := member
    exact (Qubit.relabel_lt_iff permutation old).2 (legal.target_lt old there)
  target_notMem target member := by
    rw [targets_relabel, List.mem_map] at member
    obtain ⟨old, there, rfl⟩ := member
    rw [List.mem_map_of_injective (Qubit.relabel_injective permutation)]
    exact legal.target_notMem old there
  targets_nodup := by
    rw [targets_relabel]
    exact legal.targets_nodup.map (Qubit.relabel_injective permutation)
  signal_mem signal member := by
    rw [signals_relabel, List.mem_map] at member
    obtain ⟨old, there, rfl⟩ := member
    exact List.mem_map_of_mem (legal.signal_mem old there)

theorem AllLegal.relabel
    (permutation : Equiv.Perm (Fin n))
    {measured : List Qubit}
    {commands : List (Command R)}
    (legal : AllLegal n measured commands) :
    AllLegal n (measured.map (Qubit.relabel permutation))
      (commands.map (Command.relabel permutation)) := by
  induction commands generalizing measured with
  | nil => trivial
  | cons command rest inductionHypothesis =>
      have later := inductionHypothesis legal.2
      rw [measuredAfter, List.map_append, ← Option.toList_map, ← measured?_relabel]
        at later
      exact ⟨legal.1.relabel permutation, later⟩

end Command

namespace Pattern

variable {R : Type} {n : Nat}

theorem declared_relabel
    (permutation : Equiv.Perm (Fin n))
    (pattern : Pattern R) :
    (pattern.relabel permutation).declared =
      pattern.declared.map fun entry => (entry.1.relabel permutation, entry.2) := by
  unfold declared relabel
  rw [List.flatMap_map, List.map_flatMap]
  congr 1
  funext preparation
  cases preparation with
  | input qubit ket => rfl
  | ancillas qubits => simp [Preparation.relabel, Function.comp_def]

theorem measured_relabel
    (permutation : Equiv.Perm (Fin n))
    (pattern : Pattern R) :
    (pattern.relabel permutation).measured =
      pattern.measured.map (Qubit.relabel permutation) :=
  Command.measuredBy_relabel permutation pattern.commands

/-- A renumbered pattern is lawful for the same width. -/
theorem Lawful.relabel
    (permutation : Equiv.Perm (Fin n))
    {pattern : Pattern R}
    (lawful : pattern.Lawful n) :
    (pattern.relabel permutation).Lawful n := by
  have declared : (pattern.relabel permutation).declared.map Prod.fst =
      (pattern.declared.map Prod.fst).map (Qubit.relabel permutation) := by
    rw [declared_relabel, List.map_map, List.map_map]
    rfl
  refine ⟨?_, Qubit.ascending_eq_range fun qubit => ?_,
    lawful.legal.relabel permutation⟩
  · rw [declared]
    exact lawful.declared_nodup.map (Qubit.relabel_injective permutation)
  · have back := Qubit.relabel_symm_relabel permutation.symm qubit
    rw [Equiv.symm_symm] at back
    rw [declared, ← back, List.mem_map_of_injective (Qubit.relabel_injective permutation),
      lawful.mem_declared_iff, Qubit.relabel_lt_iff, back]

end Pattern

/-! ## Waves -/

namespace Wave

variable {n : Nat} (permutation : Equiv.Perm (Fin n))

/-- The wave in which every qubit has its new number. -/
def relabel (wave : Wave n) : Wave n :=
  fun digits => wave (digits ∘ permutation)

theorem gate_relabel
    (qubit : Fin n)
    (matrix : GateMatrix)
    (wave : Wave n) :
    gate (permutation qubit) matrix (relabel permutation wave) =
      relabel permutation (gate qubit matrix wave) := by
  funext digits
  have moved (digit : Bool) : update digits (permutation qubit) digit ∘ permutation =
      update (digits ∘ permutation) qubit digit :=
    Function.update_comp_eq_of_injective digits permutation.injective qubit digit
  simp only [relabel, gate_apply, moved, Function.comp_apply]

theorem gateAt_relabel
    (qubit : Qubit)
    (matrix : GateMatrix)
    (wave : Wave n) :
    gateAt (qubit.relabel permutation) matrix (relabel permutation wave) =
      relabel permutation (gateAt qubit matrix wave) := by
  by_cases inside : qubit < n
  · lift qubit to Fin n using inside
    rw [Qubit.relabel_val, gateAt_val, gateAt_val, gate_relabel]
  · have outside := mt (Qubit.relabel_lt_iff permutation qubit).1 inside
    rw [gateAt, gateAt, dif_neg inside, dif_neg outside]

theorem controlledZAt_relabel
    (first second : Qubit)
    (wave : Wave n) :
    controlledZAt (first.relabel permutation) (second.relabel permutation)
        (relabel permutation wave) =
      relabel permutation (controlledZAt first second wave) := by
  by_cases inside : first < n ∧ second < n
  · obtain ⟨firstInside, secondInside⟩ := inside
    lift first to Fin n using firstInside
    lift second to Fin n using secondInside
    simp only [Qubit.relabel_val, controlledZAt_val]
    rfl
  · have outside : ¬(first.relabel permutation < n ∧ second.relabel permutation < n) := by
      rwa [Qubit.relabel_lt_iff, Qubit.relabel_lt_iff]
    rw [controlledZAt, controlledZAt, dif_neg inside, dif_neg outside]

theorem normSq_relabel (wave : Wave n) :
    (relabel permutation wave).normSq = wave.normSq := by
  unfold normSq relabel
  exact (Equiv.arrowCongr permutation.symm (Equiv.refl Bool)).sum_comp fun digits =>
    Complex.normSq (wave digits)

end Wave

/-! ## Paths -/

/-- The path that gives every qubit, under its new number, the same bit. -/
def relabelPath
    {n : Nat}
    (permutation : Equiv.Perm (Fin n))
    (bits : Qubit → Bool) : Qubit → Bool :=
  fun qubit => bits (qubit.relabel permutation.symm)

section Path

variable {n : Nat} (permutation : Equiv.Perm (Fin n))

@[simp] theorem relabelPath_relabel
    (bits : Qubit → Bool)
    (qubit : Qubit) :
    relabelPath permutation bits (qubit.relabel permutation) = bits qubit := by
  rw [relabelPath, Qubit.relabel_symm_relabel]

theorem relabelPath_update
    (bits : Qubit → Bool)
    (qubit : Qubit)
    (bit : Bool) :
    relabelPath permutation (update bits qubit bit) =
      update (relabelPath permutation bits) (qubit.relabel permutation) bit := by
  funext other
  have back := Qubit.relabel_symm_relabel permutation.symm other
  rw [Equiv.symm_symm] at back
  rw [← back, relabelPath_relabel]
  by_cases same : other.relabel permutation.symm = qubit
  · rw [same, Function.update_self, Function.update_self]
  · rw [Function.update_of_ne same,
      Function.update_of_ne ((Qubit.relabel_injective permutation).ne same),
      relabelPath_relabel]

/-- The choices for renumbered qubits are the renumbered choices. -/
theorem choices_relabel (qubits : List Qubit) :
    choices (qubits.map (Qubit.relabel permutation)) =
      (choices qubits).map (relabelPath permutation) := by
  induction qubits using List.reverseRecOn with
  | nil => rfl
  | append_singleton qubits last inductionHypothesis =>
      rw [List.map_append, List.map_singleton, choices_append_singleton,
        choices_append_singleton, inductionHypothesis, List.flatMap_map,
        List.map_flatMap]
      simp only [List.map_cons, List.map_nil, relabelPath_update]

theorem Outcome.along_relabel
    (bits : Qubit → Bool)
    (qubits : List Qubit) :
    along (relabelPath permutation bits) (qubits.map (Qubit.relabel permutation)) =
      (along bits qubits).relabel permutation := by
  apply Outcome.ext
  simp [along, Outcome.relabel, Function.comp_def]

theorem Signals.under_relabel
    (bits : Qubit → Bool)
    (signals : Signals) :
    under (relabelPath permutation bits) (signals.map (Qubit.relabel permutation)) =
      under bits signals := by
  induction signals with
  | nil => rfl
  | cons qubit rest inductionHypothesis =>
      rw [List.map_cons, under_cons, under_cons, relabelPath_relabel,
        inductionHypothesis]

namespace Wave

/-- A renumbered command acts on a renumbered wave as the command on the wave. -/
theorem act_relabel
    (bits : Qubit → Bool)
    (command : Command ℝ)
    (wave : Wave n) :
    act (relabelPath permutation bits) (command.relabel permutation)
        (relabel permutation wave) =
      relabel permutation (act bits command wave) := by
  cases command with
  | entangle first second => exact controlledZAt_relabel permutation first second wave
  | measure qubit angle s t =>
      rw [Command.relabel, act, Signals.under_relabel, Signals.under_relabel,
        relabelPath_relabel, gateAt_relabel]
      rfl
  | correctX qubit signals =>
      rw [Command.relabel, act, Signals.under_relabel, gateAt_relabel]
      rfl
  | correctZ qubit signals =>
      rw [Command.relabel, act, Signals.under_relabel, gateAt_relabel]
      rfl

/-- Along a renumbered path, the wave is renumbered and the conditional probabilities are
the same. -/
theorem follow_relabel
    (bits : Qubit → Bool)
    (commands : List (Command ℝ))
    (wave : Wave n) :
    follow (relabelPath permutation bits) (commands.map (Command.relabel permutation))
        (relabel permutation wave) =
      relabel permutation (follow bits commands wave) ∧
    conditionals (relabelPath permutation bits)
        (commands.map (Command.relabel permutation)) (relabel permutation wave) =
      conditionals bits commands wave := by
  induction commands generalizing wave with
  | nil => simp
  | cons command rest inductionHypothesis =>
      obtain ⟨sameWave, sameConditionals⟩ :=
        inductionHypothesis (act bits command wave)
      have kind : (command.relabel permutation).isMeasure = command.isMeasure := by
        cases command <;> rfl
      have acts := act_relabel permutation bits command wave
      refine ⟨?_, ?_⟩
      · rw [List.map_cons, follow_cons, acts, sameWave, follow_cons]
      · simp only [List.map_cons, conditionals, acts, kind, normSq_relabel,
          sameConditionals]

end Wave

end Path

/-- The product of the renumbered preparations is the renumbered product. -/
theorem Pattern.initialWave_relabel
    {n : Nat}
    (permutation : Equiv.Perm (Fin n))
    (pattern : Pattern ℝ) :
    (pattern.relabel permutation).initialWave n =
      Wave.relabel permutation (pattern.initialWave n) := by
  have state (qubit : Fin n) :
      (pattern.relabel permutation).initialState (permutation qubit).val =
        pattern.initialState qubit.val := by
    unfold initialState
    rw [declared_relabel, ← Qubit.relabel_val, Qubit.lookup_relabel]
  funext digits
  unfold initialWave Wave.relabel Wave.product
  rw [← Equiv.prod_comp permutation]
  simp only [state, Function.comp_apply]

/-- A renumbered path selects its bits like the path. -/
theorem Selects.relabel
    {n : Nat}
    (permutation : Equiv.Perm (Fin n))
    {G : Type}
    [DrawSource G ℝ]
    {bits : Qubit → Bool}
    {qubits : List Qubit}
    {shares : List ℝ}
    {source : G}
    (selects : Selects bits qubits shares source) :
    Selects (relabelPath permutation bits) (qubits.map (Qubit.relabel permutation))
      shares source := by
  induction qubits generalizing shares source with
  | nil => trivial
  | cons qubit rest inductionHypothesis =>
      cases shares with
      | nil => trivial
      | cons share shares =>
          obtain ⟨here, later⟩ := selects
          refine ⟨?_, inductionHypothesis later⟩
          rwa [relabelPath_relabel]

/-! ## Programs -/

/-- The program with renumbered qubits. -/
def Program.relabel
    {R : Type}
    (program : Program R)
    (permutation : Equiv.Perm (Fin program.width)) : Program R where
  pattern := program.pattern.relabel permutation
  width := program.width
  accepted := (Pattern.check_eq_ok_iff _ _).2 (program.lawful.relabel permutation)

namespace Program

variable (program : Program ℝ) (permutation : Equiv.Perm (Fin program.width))

/-- Along a renumbered path of the renumbered program, the wave is renumbered and the
conditional probabilities are the same. -/
theorem follow_relabel (bits : Qubit → Bool) :
    Wave.follow (relabelPath permutation bits)
        (program.relabel permutation).pattern.commands
        ((program.relabel permutation).pattern.initialWave program.width) =
      Wave.relabel permutation (Wave.follow bits program.pattern.commands
        (program.pattern.initialWave program.width)) ∧
    Wave.conditionals (relabelPath permutation bits)
        (program.relabel permutation).pattern.commands
        ((program.relabel permutation).pattern.initialWave program.width) =
      Wave.conditionals bits program.pattern.commands
        (program.pattern.initialWave program.width) := by
  change Wave.follow _ (program.pattern.commands.map _)
      ((program.pattern.relabel permutation).initialWave program.width) = _ ∧
    Wave.conditionals _ (program.pattern.commands.map _)
      ((program.pattern.relabel permutation).initialWave program.width) = _
  rw [Pattern.initialWave_relabel]
  exact Wave.follow_relabel permutation bits program.pattern.commands _

theorem renames_relabel :
    program.pathDistribution.Renames (Outcome.relabel permutation)
      (program.relabel permutation).pathDistribution := by
  refine renames_pathDistribution (relabelPath permutation) ?_ (fun bits => ?_)
    (fun bits => ?_) fun bits => ?_
  · rw [← choices_relabel, ← Pattern.measured_relabel]
    exact List.Perm.refl _
  · unfold Wave.Kept
    rw [← (program.follow_relabel permutation bits).2]
    rfl
  · rw [← Wave.normSq_relabel permutation, ← (program.follow_relabel permutation bits).1]
    rfl
  · rw [← Outcome.along_relabel, ← Pattern.measured_relabel]
    rfl

/-- The enumeration of the renumbered program has the same result under the new
numbers. -/
theorem enumerate_relabel (tolerance : ℝ) :
    (∀ distribution, program.enumerate tolerance = .ok distribution →
      ∃ renamed, (program.relabel permutation).enumerate tolerance = .ok renamed ∧
        distribution.Renames (Outcome.relabel permutation) renamed) ∧
    ∀ error, program.enumerate tolerance = .error error →
      (program.relabel permutation).enumerate tolerance = .error error := by
  rcases le_or_gt 0 tolerance with nonneg | negative
  · have renames := program.renames_relabel permutation
    have total := renames.total_eq
    rw [program.enumerate_eq nonneg, (program.relabel permutation).enumerate_eq nonneg,
      total]
    split
    · refine ⟨fun distribution success => ?_, fun error failure => (by cases failure)⟩
      obtain rfl := Except.ok.inj success
      exact ⟨_, rfl, renames⟩
    · refine ⟨fun distribution success => (by cases success), fun error failure => ?_⟩
      rw [← Except.error.inj failure]
  · rw [program.enumerate_eq_error negative,
      (program.relabel permutation).enumerate_eq_error negative]
    exact ⟨fun distribution success => (by cases success), fun error failure => failure⟩

/-- A shot of the renumbered program has the same outcome under the new numbers. -/
theorem shoot_relabel
    {G : Type}
    [DrawSource G ℝ]
    (tolerance : ℝ)
    (source : G) :
    (program.relabel permutation).shoot tolerance source =
      (program.shoot tolerance source).map fun result =>
        (result.1.relabel permutation, result.2) := by
  rcases le_or_gt 0 tolerance with nonneg | negative
  · obtain ⟨path, _, selected, shot⟩ := program.exists_shoot_eq_ok nonneg source
    have measured := program.pattern.measured_relabel permutation
    -- The draws select the renumbered path, since its conditional probabilities are the same.
    have renumbered : Wave.SelectedBy source (relabelPath permutation path)
        (program.relabel permutation).pattern.commands
        ((program.relabel permutation).pattern.initialWave program.width) := by
      unfold Wave.SelectedBy
      rw [(program.follow_relabel permutation path).2]
      change Selects _ (program.pattern.relabel permutation).measured _ source
      rw [measured]
      exact selected.relabel permutation
    have newShot :=
      (program.relabel permutation).shoot_eq_ok_of_selectedBy nonneg renumbered
    rw [newShot, shot]
    change Except.ok (Outcome.along _ (program.pattern.relabel permutation).measured,
      DrawSource.after (program.pattern.relabel permutation).measured.length source) = _
    rw [measured, Outcome.along_relabel, List.length_map]
    rfl
  · rw [program.shoot_eq_error negative,
      (program.relabel permutation).shoot_eq_error negative]
    rfl

/-- Qubit numbers are only names: a pattern whose qubits are renumbered
throughout is well-formed for the same width, and its enumeration and shots
have the same results under the new numbers. -/
theorem independent_of_numbering :
    (∀ (R : Type) (pattern : Pattern R) (width : Nat)
      (permutation : Equiv.Perm (Fin width)),
      pattern.check = .ok width → (pattern.relabel permutation).check = .ok width) ∧
    ∀ (program : Program ℝ) (permutation : Equiv.Perm (Fin program.width))
      (tolerance : ℝ),
      ((∀ distribution, program.enumerate tolerance = .ok distribution →
          ∃ renamed, (program.relabel permutation).enumerate tolerance = .ok renamed ∧
            distribution.Renames (Outcome.relabel permutation) renamed) ∧
        ∀ error, program.enumerate tolerance = .error error →
          (program.relabel permutation).enumerate tolerance = .error error) ∧
      ∀ (G : Type) [DrawSource G ℝ] (source : G),
        (program.relabel permutation).shoot tolerance source =
          (program.shoot tolerance source).map fun result =>
            (result.1.relabel permutation, result.2) := by
  refine ⟨fun R pattern width permutation accepted => ?_,
    fun program permutation tolerance => ⟨program.enumerate_relabel permutation tolerance,
      fun G _ source => program.shoot_relabel permutation tolerance source⟩⟩
  rw [Pattern.check_eq_ok_iff] at accepted ⊢
  exact accepted.relabel permutation

/-- The exchange of two numbers. -/
def exchangedNumbers : Equiv.Perm (Fin 2) := Equiv.swap 0 1

theorem independent_of_numbering_adaptive :
    (adaptive.pattern.relabel exchangedNumbers).check = .ok 2 ∧
    (∃ distribution renamed, adaptive.enumerate 1 = .ok distribution ∧
      (adaptive.relabel exchangedNumbers).enumerate 1 = .ok renamed ∧
      distribution.Renames (Outcome.relabel exchangedNumbers) renamed) ∧
    (adaptive.relabel exchangedNumbers).enumerate (-1) =
      .error (.numeric .initialState 1 (-1)) := by
  obtain ⟨accepted, independent⟩ := independent_of_numbering
  have success := adaptive.enumerate_eq_ok_of_one_le le_rfl
  have failure := adaptive.enumerate_eq_error neg_one_lt_zero
  obtain ⟨renamed, renamedSuccess, renames⟩ :=
    (independent adaptive exchangedNumbers 1).1.1 _ success
  exact ⟨accepted ℝ _ 2 _ adaptive.accepted, ⟨_, renamed, success, renamedSuccess, renames⟩,
    (independent adaptive exchangedNumbers (-1)).1.2 _ failure⟩

end Program

end MeasurementCalculus
