import MeasurementCalculus.Proofs.Standardization
import MeasurementCalculus.Simulator

/-!
# Order and grouping of the preparations

A preparation declares one input or a batch of ancillas, and a pattern lists
its preparations in some order. Neither the order nor the grouping matters:
only the declared qubits and their states do. The check finds out that no
qubit is declared twice, so it does not matter either that a run takes the
last declaration of a qubit.
-/

namespace MeasurementCalculus

variable {R : Type}

/-! ## Lists of preparations -/

namespace Preparation

/-- Two lists of preparations declare the same qubits in the same states, in any order and
grouping. -/
def Regroups (first second : List (Preparation R)) : Prop :=
  (first.flatMap declared).Perm (second.flatMap declared)

theorem Regroups.symm
    {first second : List (Preparation R)}
    (same : Regroups first second) : Regroups second first :=
  List.Perm.symm same

theorem Regroups.trans
    {first second third : List (Preparation R)}
    (earlier : Regroups first second)
    (later : Regroups second third) : Regroups first third :=
  List.Perm.trans earlier later

/-- The order of the preparations does not matter. -/
theorem Regroups.of_perm
    {first second : List (Preparation R)}
    (perm : first.Perm second) : Regroups first second :=
  perm.flatMap_right declared

/-- A batch of ancillas can be split in two. -/
theorem regroups_split
    (earlier later : List Qubit)
    (rest : List (Preparation R)) :
    Regroups (.ancillas (earlier ++ later) :: rest)
      (.ancillas earlier :: .ancillas later :: rest) := by
  unfold Regroups
  simp only [List.flatMap_cons, declared_ancillas, List.map_append, List.append_assoc]
  exact List.Perm.refl _

/-- A single ancilla is prepared like an input in the equal superposition. -/
theorem regroups_single
    (qubit : Qubit)
    (rest : List (Preparation R)) :
    Regroups (.ancillas [qubit] :: rest) (.input qubit .plus :: rest) :=
  List.Perm.refl _

end Preparation

namespace Pattern

/-- The pattern with other preparations. -/
def regroup
    (preparations : List (Preparation R))
    (pattern : Pattern R) : Pattern R :=
  { pattern with preparations }

variable {pattern : Pattern R} {preparations : List (Preparation R)}

/-- A lawful pattern stays lawful for the same width if its preparations are regrouped. -/
theorem Lawful.regroup
    {width : Nat}
    (lawful : pattern.Lawful width)
    (same : Preparation.Regroups preparations pattern.preparations) :
    (pattern.regroup preparations).Lawful width := by
  have perm : ((pattern.regroup preparations).declared.map Prod.fst).Perm
      (pattern.declared.map Prod.fst) := List.Perm.map Prod.fst same
  exact {
    declared_nodup := perm.nodup_iff.2 lawful.declared_nodup
    prepared_eq := Qubit.ascending_eq_range fun qubit =>
      perm.mem_iff.trans (lawful.mem_declared_iff qubit)
    legal := lawful.legal }

end Pattern

/-! ## The start of a run -/

namespace Run

/-- In declarations without repetition, the order does not matter for what is found last. -/
theorem lookup_reverse_of_perm
    {declared others : List (Qubit × Ket R)}
    (perm : others.Perm declared)
    (nodup : (declared.map Prod.fst).Nodup)
    (qubit : Qubit) :
    others.reverse.lookup qubit = declared.reverse.lookup qubit := by
  have othersNodup : (others.map Prod.fst).Nodup := (perm.map Prod.fst).nodup_iff.2 nodup
  refine Option.ext fun ket => ?_
  rw [lookup_reverse_eq_some_iff nodup, lookup_reverse_eq_some_iff othersNodup,
    perm.mem_iff]

/-- Regrouped preparations fill the register with the same states. -/
theorem initialKets_regroup
    {width : Nat}
    {pattern : Pattern R}
    (lawful : pattern.Lawful width)
    {preparations : List (Preparation R)}
    (same : Preparation.Regroups preparations pattern.preparations) :
    initialKets width (pattern.regroup preparations).declared =
      initialKets width pattern.declared := by
  have perm : (pattern.regroup preparations).declared.Perm pattern.declared := same
  have below : ∀ declaration ∈ pattern.declared, declaration.1 < width :=
    fun declaration member =>
      (lawful.mem_declared_iff declaration.1).1 (List.mem_map_of_mem member)
  unfold initialKets
  rw [forM_locate_eq_ok below, forM_locate_eq_ok fun declaration member =>
    below declaration (perm.mem_iff.1 member)]
  simp only [lookup_reverse_of_perm perm lawful.declared_nodup]

end Run

namespace Program

variable {program : Program R} {preparations : List (Preparation R)}

/-- The program with regrouped preparations. -/
def regroup
    (program : Program R)
    (same : Preparation.Regroups preparations program.pattern.preparations) :
    Program R where
  pattern := program.pattern.regroup preparations
  width := program.width
  accepted := (Pattern.check_eq_ok_iff _ _).2 (program.lawful.regroup same)

variable (same : Preparation.Regroups preparations program.pattern.preparations)
variable [Scalar R]

/-- A program with regrouped preparations starts in the same state, or fails with the same
error. -/
theorem start_regroup (tolerance : R) :
    Run.start (program.regroup same) tolerance = Run.start program tolerance := by
  have kets : Run.initialKets program.width (program.regroup same).pattern.declared =
      Run.initialKets program.width program.pattern.declared :=
    Run.initialKets_regroup program.lawful same
  unfold Run.start
  change (Run.initialKets program.width (program.regroup same).pattern.declared >>= _) = _
  rw [kets]
  rfl

theorem enumerate_regroup (tolerance : R) :
    (program.regroup same).enumerate tolerance = program.enumerate tolerance := by
  have branches : (program.regroup same).branches tolerance =
      program.branches tolerance := by
    unfold branches
    rw [start_regroup same]
    rfl
  unfold enumerate
  rw [branches]
  rfl

theorem shoot_regroup
    {G : Type}
    [DrawSource G R]
    (tolerance : R)
    (source : G) :
    (program.regroup same).shoot tolerance source = program.shoot tolerance source := by
  unfold shoot
  rw [start_regroup same]
  rfl

theorem evaluateProgram_regroup
    (G : Type)
    [Generator G]
    [DrawSource G R]
    (simulator : Simulator R)
    (mode : Mode) :
    simulator.evaluateProgram G (program.regroup same) mode =
      simulator.evaluateProgram G program mode := by
  have capacity : simulator.checkCapacity (program.regroup same) =
      simulator.checkCapacity program := rfl
  cases mode with
  | shots count =>
      unfold Simulator.evaluateProgram Simulator.shotsFrom
      simp only [capacity, shoot_regroup same]
  | exact =>
      unfold Simulator.evaluateProgram Simulator.exactDistribution
      simp only [capacity, enumerate_regroup same]

/-- The order and the grouping of the preparations do not matter: the check,
every run, every evaluation by a simulator and the standard form stay the
same. -/
theorem independent_of_grouping
    (program : Program R)
    {preparations : List (Preparation R)}
    (same : Preparation.Regroups preparations program.pattern.preparations) :
    (program.pattern.regroup preparations).check = .ok program.width ∧
    (∃ kets,
      Run.initialKets program.width (program.pattern.regroup preparations).declared =
        .ok kets ∧
      Run.initialKets program.width program.pattern.declared = .ok kets) ∧
    (∀ tolerance,
      Run.start (program.regroup same) tolerance = Run.start program tolerance ∧
      (program.regroup same).enumerate tolerance = program.enumerate tolerance) ∧
    (∀ (G : Type) [DrawSource G R] (tolerance : R) (source : G),
      (program.regroup same).shoot tolerance source = program.shoot tolerance source) ∧
    (∀ (G : Type) [Generator G] [DrawSource G R] (simulator : Simulator R) (mode : Mode),
      simulator.evaluateProgram G (program.regroup same) mode =
        simulator.evaluateProgram G program mode) ∧
    program.pattern.standardize = .ok program.standardForm.pattern ∧
    (program.pattern.regroup preparations).standardize =
      .ok (program.standardForm.pattern.regroup preparations) := by
  obtain ⟨kets, filled, _⟩ := Run.initialKets_eq_ok program.lawful
  have refilled := (Run.initialKets_regroup program.lawful same).trans filled
  exact ⟨(program.regroup same).accepted, ⟨kets, refilled, filled⟩,
    fun tolerance => ⟨start_regroup same tolerance, enumerate_regroup same tolerance⟩,
    fun G _ tolerance source => shoot_regroup same tolerance source,
    fun G _ _ simulator mode => evaluateProgram_regroup same G simulator mode,
    program.standardize_eq_ok, (program.regroup same).standardize_eq_ok⟩

/-- A program that prepares its ancillas in one batch before its input. -/
noncomputable def batched : Program ℝ where
  pattern :=
    { preparations := [.ancillas [2, 1], .input 0 (.equatorial 1)]
      commands :=
        [.entangle 0 1, .entangle 1 2, .measure 0 (-1) [] [], .correctX 1 [0],
          .measure 1 1 [0] [0], .correctZ 2 [1, 0]] }
  width := 3
  accepted := rfl

/-- The preparations of `batched` one by one, from the first qubit to the last. -/
noncomputable def unbatched : List (Preparation ℝ) :=
  [.input 0 (.equatorial 1), .input 1 .plus, .ancillas [2]]

theorem regroups_unbatched :
    Preparation.Regroups unbatched batched.pattern.preparations := by
  have split := Preparation.regroups_split [2] [1] [.input 0 (.equatorial (1 : ℝ))]
  have turned : Preparation.Regroups
      [.ancillas [2], .ancillas [1], .input 0 (.equatorial (1 : ℝ))]
      [.ancillas [1], .input 0 (.equatorial 1), .ancillas [2]] :=
    .of_perm (List.perm_append_singleton _ [_, _]).symm
  have single := Preparation.regroups_single 1
    [.input 0 (.equatorial (1 : ℝ)), .ancillas [2]]
  have swapped : Preparation.Regroups
      [.input 1 .plus, .input 0 (.equatorial (1 : ℝ)), .ancillas [2]] unbatched :=
    .of_perm (.swap _ _ _)
  exact (split.trans (turned.trans (single.trans swapped))).symm

theorem independent_of_grouping_batched :
    (batched.pattern.regroup unbatched).check = .ok 3 ∧
    (batched.regroup regroups_unbatched).enumerate 1 = .ok batched.pathDistribution ∧
    (batched.regroup regroups_unbatched).enumerate (-1) =
      .error (.numeric .initialState 1 (-1)) ∧
    (∀ draws : Stream' ℝ, ∃ outcome rest,
      (batched.regroup regroups_unbatched).shoot 0 draws = .ok (outcome, rest) ∧
      batched.shoot 0 draws = .ok (outcome, rest)) ∧
    (batched.pattern.regroup unbatched).standardize =
      .ok (batched.standardForm.pattern.regroup unbatched) := by
  obtain ⟨accepted, _, runs, shots, _, _, standardized⟩ :=
    independent_of_grouping batched regroups_unbatched
  refine ⟨accepted, ?_, ?_, fun draws => ?_, standardized⟩
  · rw [(runs 1).2]
    exact batched.enumerate_eq_ok_of_one_le le_rfl
  · rw [(runs (-1)).2]
    exact batched.enumerate_eq_error neg_one_lt_zero
  · obtain ⟨path, _, _, shot⟩ := batched.exists_shoot_eq_ok le_rfl draws
    exact ⟨_, _, (shots _ 0 draws).trans shot, shot⟩

end Program

end MeasurementCalculus
