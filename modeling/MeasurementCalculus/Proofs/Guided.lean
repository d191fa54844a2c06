import MeasurementCalculus.Proofs.Commutation
import MeasurementCalculus.Proofs.Draws
import MeasurementCalculus.Proofs.Hoisting

/-!
# Guided runs

A guided run takes the outcomes that it is told, and is refused at a
measurement whose prescribed outcome cannot occur. In exact arithmetic it
shows the conditional probabilities along the path of its bits and ends with
the normalized wave. Taking out the entanglements to the front changes
neither, so it leaves guided runs as they are.
-/

namespace MeasurementCalculus

open Function (update)

/-- A measured qubit with the probabilities of its outcomes. -/
structure Odds (R : Type) where
  /-- The measured qubit. -/
  qubit : Qubit
  /-- The probability of outcome zero. -/
  zeroProbability : R
  /-- The probability of outcome one. -/
  oneProbability : R

/-- What a guided run returns. -/
structure Guided (R : Type) (n : Nat) where
  /-- The odds at every measurement that the run has reached. -/
  odds : List (Odds R)
  /-- The run at the end, unless it was refused. -/
  result : Except (Error R) (Run R n)

/-- Go on from the end of a guided run, unless it was refused. -/
def Guided.andThen
    {R : Type}
    {n : Nat}
    (guided : Guided R n)
    (next : Run R n → Guided R n) : Guided R n :=
  match guided.result with
  | .error _ => guided
  | .ok run => ⟨guided.odds ++ (next run).odds, (next run).result⟩

namespace Run

variable {R : Type} [Scalar R] {n : Nat}

/-- Execute the command at position `index`; a measurement takes the outcome that is
prescribed for its qubit. -/
def guideStep
    (tolerance : R)
    (bits : Qubit → Bool)
    (index : Nat)
    (command : Command R)
    (run : Run R n) : Guided R n :=
  match command with
  | .measure qubit angle s t =>
      match run.measurement tolerance index qubit angle s t with
      | .error error => ⟨[], .error error⟩
      | .ok pending =>
          ⟨[⟨qubit, pending.zeroProbability, pending.oneProbability⟩],
            run.collapse tolerance index pending (bits qubit)⟩
  | _ => ⟨[], run.apply index command⟩

/-- Execute commands of which the first has the given position. -/
def guideFrom
    (tolerance : R)
    (bits : Qubit → Bool)
    (index : Nat)
    (run : Run R n) : List (Command R) → Guided R n
  | [] => ⟨[], .ok run⟩
  | command :: rest =>
      (run.guideStep tolerance bits index command).andThen fun next =>
        next.guideFrom tolerance bits (index + 1) rest

theorem guideStep_of_not_measure
    {command : Command R}
    (noMeasure : command.measured? = none)
    (tolerance : R)
    (bits : Qubit → Bool)
    (index : Nat)
    (run : Run R n) :
    run.guideStep tolerance bits index command = ⟨[], run.apply index command⟩ := by
  cases command with
  | measure qubit angle s t => cases noMeasure
  | entangle first second => rfl
  | correctX qubit signals => rfl
  | correctZ qubit signals => rfl

/-- An outcome that cannot occur is refused. -/
theorem collapse_eq_error
    {run : Run R n}
    {pending : PendingMeasurement R n}
    {outcome : Bool}
    (impossible : pending.probability outcome ≤ Scalar.probabilityFloor)
    (tolerance : R)
    (index : Nat) :
    run.collapse tolerance index pending outcome =
      .error (.numeric (.impossibleOutcome pending.qubit outcome index)
        (pending.probability outcome) Scalar.probabilityFloor) := by
  unfold collapse
  exact if_pos impossible

end Run

/-- The guided run of a program. -/
def Program.guide
    {R : Type}
    [Scalar R]
    (program : Program R)
    (tolerance : R)
    (bits : Qubit → Bool) : Guided R program.width :=
  match Run.start program tolerance with
  | .error error => ⟨[], .error error⟩
  | .ok run => run.guideFrom tolerance bits 0 program.pattern.commands

/-! ## Guided runs go along paths -/

/-- The odds of a measurement at which the prescribed outcome has the given
probability. -/
noncomputable def Odds.of
    (bits : Qubit → Bool)
    (qubit : Qubit)
    (share : ℝ) : Odds ℝ where
  qubit := qubit
  zeroProbability := bitShare (bits qubit) share
  oneProbability := bitShare (!bits qubit) share

/-- The odds of successive measurements, up to the first one whose prescribed outcome is
refused. -/
noncomputable def Odds.along (bits : Qubit → Bool) : List Qubit → List ℝ → List (Odds ℝ)
  | qubit :: qubits, share :: shares =>
      .of bits qubit share ::
        if Scalar.probabilityFloor < share then along bits qubits shares else []
  | _, _ => []

/-- The first measurement whose prescribed outcome is refused, with the probability of
this outcome. -/
noncomputable def firstRefused : List Qubit → List ℝ → Option (Qubit × ℝ)
  | qubit :: qubits, share :: shares =>
      if Scalar.probabilityFloor < share then firstRefused qubits shares
      else some (qubit, share)
  | _, _ => none

theorem le_floor_of_firstRefused_eq_some
    {qubits : List Qubit}
    {shares : List ℝ}
    {refused : Qubit × ℝ}
    (first : firstRefused qubits shares = some refused) :
    refused.2 ≤ Scalar.probabilityFloor := by
  fun_induction firstRefused qubits shares with
  | case1 qubit qubits share shares above inductionHypothesis =>
      exact inductionHypothesis first
  | case2 qubit qubits share shares below =>
      rw [← Option.some.inj first]
      exact not_lt.1 below
  | case3 => cases first

/-- Nothing is refused if all probabilities exceed the floor. -/
theorem firstRefused_eq_none_iff
    {qubits : List Qubit}
    {shares : List ℝ}
    (same : shares.length = qubits.length) :
    firstRefused qubits shares = none ↔
      ∀ share ∈ shares, Scalar.probabilityFloor < share := by
  induction qubits generalizing shares with
  | nil =>
      rw [List.length_eq_zero_iff.1 same]
      simp [firstRefused]
  | cons qubit qubits inductionHypothesis =>
      cases shares with
      | nil => cases same
      | cons share shares =>
          rw [firstRefused, List.forall_mem_cons,
            ← inductionHypothesis (Nat.succ.inj same)]
          split
          · next above => exact (and_iff_right above).symm
          · next below => simp [below]

/-- What a guided run returns if the prescribed outcomes of the listed qubits have the
given conditional probabilities. -/
structure Guided.Follows
    {n : Nat}
    (bits : Qubit → Bool)
    (qubits : List Qubit)
    (shares : List ℝ)
    (final : Run ℝ n)
    (guided : Guided ℝ n) : Prop where
  /-- The odds are those of the measurements up to the first refusal. -/
  odds_eq : guided.odds = Odds.along bits qubits shares
  /-- If there is no refusal, the run ends as given. -/
  result_eq_ok : firstRefused qubits shares = none → guided.result = .ok final
  /-- If there is one, the error names it. -/
  result_eq_error : ∀ qubit share, firstRefused qubits shares = some (qubit, share) →
    ∃ index, guided.result =
      .error (.numeric (.impossibleOutcome qubit (bits qubit) index) share
        Scalar.probabilityFloor)

section Follows

variable {n : Nat} {bits : Qubit → Bool} {qubits : List Qubit} {shares : List ℝ}
variable {final : Run ℝ n}

/-- A measurement whose prescribed outcome can occur comes before the others. -/
theorem Guided.Follows.cons
    {qubit : Qubit}
    {share : ℝ}
    (above : Scalar.probabilityFloor < share)
    {guided : Guided ℝ n}
    (later : guided.Follows bits qubits shares final) :
    Follows bits (qubit :: qubits) (share :: shares) final
      ⟨.of bits qubit share :: guided.odds, guided.result⟩ where
  odds_eq := by rw [Odds.along, if_pos above, later.odds_eq]
  result_eq_ok := by
    rw [firstRefused, if_pos above]
    exact later.result_eq_ok
  result_eq_error := by
    rw [firstRefused, if_pos above]
    exact later.result_eq_error

/-- A measurement whose prescribed outcome cannot occur is the last one. -/
theorem Guided.follows_of_refused
    (bits : Qubit → Bool)
    (qubit : Qubit)
    (qubits : List Qubit)
    {share : ℝ}
    (below : share ≤ Scalar.probabilityFloor)
    (shares : List ℝ)
    (final : Run ℝ n)
    (index : Nat) :
    Follows bits (qubit :: qubits) (share :: shares) final
      ⟨[.of bits qubit share],
        .error (.numeric (.impossibleOutcome qubit (bits qubit) index) share
          Scalar.probabilityFloor)⟩ where
  odds_eq := by rw [Odds.along, if_neg (not_lt.2 below)]
  result_eq_ok none := by
    rw [firstRefused, if_neg (not_lt.2 below)] at none
    cases none
  result_eq_error other weight first := by
    rw [firstRefused, if_neg (not_lt.2 below)] at first
    cases first
    exact ⟨index, rfl⟩

/-- Guided runs that follow the same probabilities to the same end are the same, but for
the position of the command that was refused. -/
theorem Guided.Follows.same
    {first second : Guided ℝ n}
    (followsFirst : first.Follows bits qubits shares final)
    (followsSecond : second.Follows bits qubits shares final) :
    second.odds = first.odds ∧
      (firstRefused qubits shares = none →
        first.result = .ok final ∧ second.result = .ok final) ∧
      (firstRefused qubits shares ≠ none →
        ∃ qubit share index other,
          share ≤ Scalar.probabilityFloor ∧
          first.result =
            .error (.numeric (.impossibleOutcome qubit (bits qubit) index) share
              Scalar.probabilityFloor) ∧
          second.result =
            .error (.numeric (.impossibleOutcome qubit (bits qubit) other) share
              Scalar.probabilityFloor)) := by
  refine ⟨followsSecond.odds_eq.trans followsFirst.odds_eq.symm,
    fun none => ⟨followsFirst.result_eq_ok none, followsSecond.result_eq_ok none⟩,
    fun some => ?_⟩
  obtain ⟨⟨qubit, share⟩, refused⟩ := Option.ne_none_iff_exists'.1 some
  obtain ⟨index, firstError⟩ := followsFirst.result_eq_error qubit share refused
  obtain ⟨other, secondError⟩ := followsSecond.result_eq_error qubit share refused
  exact ⟨qubit, share, index, other, le_floor_of_firstRefused_eq_some refused, firstError,
    secondError⟩

end Follows

namespace Branch

variable {n : Nat} {initial : Wave n} {before : List (Command ℝ)}

/-- A guided run that has gone along a path takes one more measurement: its odds are the
conditional probabilities, and it goes on along the path unless the prescribed outcome is
refused. -/
theorem guideStep_measure_along
    {qubit : Qubit}
    {angle : ℝ}
    {s t : Signals}
    (unit : initial.normSq = 1)
    {bits : Qubit → Bool}
    (kept : Wave.Kept bits before initial)
    (legalBefore : Command.AllLegal n [] before)
    (legal : (Command.measure qubit angle s t).Legal n (Command.measuredBy before))
    {tolerance : ℝ}
    (nonneg : 0 ≤ tolerance)
    (index : Nat)
    {share : ℝ}
    (ratio : share =
      (Wave.act bits (.measure qubit angle s t) (Wave.follow bits before initial)).normSq /
        (Wave.follow bits before initial).normSq) :
    (along initial before bits).run.guideStep tolerance bits index
        (.measure qubit angle s t) =
      ⟨[.of bits qubit share],
        if Scalar.probabilityFloor < share then
          .ok (along initial (before ++ [.measure qubit angle s t]) bits).run
        else .error (.numeric (.impossibleOutcome qubit (bits qubit) index) share
          Scalar.probabilityFloor)⟩ := by
  have fresh := legal.target_notMem qubit (by simp)
  have apart (signal : Qubit) (member : signal ∈ s ++ t) : signal ≠ qubit :=
    legal.ne_of_mem member (by simp)
  obtain ⟨pending, pends, sameQubit, total, acts, probability⟩ :=
    measurement_along unit kept legalBefore legal nonneg index
  have chosen : pending.probability (bits qubit) = share := by
    rw [probability, Function.update_eq_self, ratio]
  have split (outcome : Bool) :
      pending.probability outcome = bitShare outcome (pending.probability false) := by
    rw [probability, probability, Wave.ratio_eq_bitShare bits apart
      (legal.target_lt qubit (by simp)) angle (kept.normSq_pos (unit ▸ one_pos))]
    rfl
  have zero : pending.zeroProbability = bitShare (bits qubit) share := by
    rw [← chosen, split, bitShare_bitShare]
    rfl
  have one : pending.oneProbability = bitShare (!bits qubit) share := by
    rw [bitShare_not, ← zero]
    exact split true
  have collapsed : (along initial before bits).run.collapse tolerance index pending
        (bits qubit) =
      if Scalar.probabilityFloor < share then
        .ok (along initial (before ++ [.measure qubit angle s t]) bits).run
      else .error (.numeric (.impossibleOutcome qubit (bits qubit) index) share
        Scalar.probabilityFloor) := by
    split
    · next above =>
        have taken := take_along unit kept legalBefore fresh sameQubit total
          (acts (bits qubit)) (probability _) (chosen ▸ above) nonneg index
        rw [Function.update_eq_self] at taken
        exact collapse_of_take_eq_ok taken
    · next below =>
        rw [Run.collapse_eq_error (chosen ▸ not_lt.1 below), chosen, sameQubit]
  rw [Run.guideStep, pends]
  dsimp only
  rw [zero, one, collapsed]
  rfl

/-- A guided run that has gone along a path follows it to the end. -/
theorem guideFrom_along
    (unit : initial.normSq = 1)
    {rest : List (Command ℝ)}
    (legal : Command.AllLegal n [] (before ++ rest))
    {bits : Qubit → Bool}
    (kept : Wave.Kept bits before initial)
    {tolerance : ℝ}
    (nonneg : 0 ≤ tolerance)
    (index : Nat) :
    ((along initial before bits).run.guideFrom tolerance bits index rest).Follows bits
      (Command.measuredBy rest)
      (Wave.conditionals bits rest (Wave.follow bits before initial))
      (along initial (before ++ rest) bits).run := by
  -- What has been executed grows by one command in each step, and stays a kept path.
  induction rest generalizing before index with
  | nil =>
      rw [List.append_nil]
      exact ⟨rfl, fun _ => rfl, fun _ _ refused => by cases refused⟩
  | cons command rest inductionHypothesis =>
      obtain ⟨legalBefore, legalCommand, _⟩ :=
        (Command.allLegal_append n [] before (command :: rest)).1 legal
      rw [List.append_cons] at legal ⊢
      rcases command.measured?_eq_none_or with
        noMeasure | ⟨qubit, angle, s, t, rfl⟩
      · have longer := (Wave.kept_append_of_none bits before noMeasure initial).2 kept
        have later := inductionHypothesis legal longer (index + 1)
        have single : Command.measuredBy [command] = [] := by
          simp [noMeasure]
        rw [Run.guideFrom, Run.guideStep_of_not_measure noMeasure,
          apply_along initial legalBefore bits legalCommand noMeasure index,
          Command.measuredBy_cons, noMeasure, Wave.conditionals_cons,
          (Wave.normSq_follow bits single _).2]
        rw [Wave.follow_append] at later
        exact later
      · rw [Run.guideFrom,
          guideStep_measure_along unit kept legalBefore legalCommand nonneg index rfl,
          Command.measuredBy_cons, Wave.conditionals_cons]
        by_cases above : Scalar.probabilityFloor <
            (Wave.act bits (.measure qubit angle s t)
              (Wave.follow bits before initial)).normSq /
                (Wave.follow bits before initial).normSq
        · have longer : Wave.Kept bits (before ++ [.measure qubit angle s t]) initial :=
            (Wave.kept_append _ _ _ _).2 ⟨kept, (Wave.kept_measure ..).2 above⟩
          have later := inductionHypothesis legal longer (index + 1)
          rw [Wave.follow_append] at later
          rw [if_pos above]
          exact later.cons above
        · rw [if_neg above]
          exact Guided.follows_of_refused bits qubit _ (not_lt.1 above) _ _ index

end Branch

namespace Program

/-- The guided run of a program goes along the path of its bits. -/
theorem guide_follows
    (program : Program ℝ)
    {tolerance : ℝ}
    (nonneg : 0 ≤ tolerance)
    (bits : Qubit → Bool) :
    (program.guide tolerance bits).Follows bits program.pattern.measured
      (Wave.conditionals bits program.pattern.commands
        (program.pattern.initialWave program.width))
      (Branch.along (program.pattern.initialWave program.width)
        program.pattern.commands bits).run := by
  have unit := program.pattern.normSq_initialWave program.width
  have legal : Command.AllLegal program.width [] ([] ++ program.pattern.commands) :=
    program.lawful.legal
  have follows := Branch.guideFrom_along unit legal (Wave.kept_nil bits _) nonneg 0
  rw [Branch.along_nil unit] at follows
  rw [guide, program.start_eq_ok nonneg]
  exact follows

/-! ## Hoisting -/

/-- The program with its entanglements taken out to the front. -/
def hoisted
    {R : Type}
    (program : Program R) : Program R where
  pattern :=
    { program.pattern with
      commands :=
        (StandardForm.separate program.pattern.commands).entanglements ++
          (StandardForm.separate program.pattern.commands).others }
  width := program.width
  accepted := by
    obtain ⟨entanglements, others⟩ :=
      StandardForm.allLegal_separate program.lawful.legal
    refine (Pattern.check_eq_ok_iff _ _).2
      ⟨program.lawful.declared_nodup, program.lawful.prepared_eq, ?_⟩
    rw [Command.allLegal_append, (StandardForm.measuredBy_separate _).1]
    exact ⟨entanglements, others⟩

/-- Hoisting changes neither the measured qubits, nor the wave along a path, nor its
conditional probabilities. -/
theorem follow_hoisted
    (program : Program ℝ)
    (bits : Qubit → Bool) :
    program.hoisted.pattern.measured = program.pattern.measured ∧
      Wave.follow bits program.hoisted.pattern.commands
          (program.pattern.initialWave program.width) =
        Wave.follow bits program.pattern.commands
          (program.pattern.initialWave program.width) ∧
      Wave.conditionals bits program.hoisted.pattern.commands
          (program.pattern.initialWave program.width) =
        Wave.conditionals bits program.pattern.commands
          (program.pattern.initialWave program.width) := by
  obtain ⟨noMeasure, sameMeasured⟩ :=
    StandardForm.measuredBy_separate program.pattern.commands
  obtain ⟨sameWave, sameConditionals⟩ := StandardForm.follow_separate bits
    program.lawful.legal (program.pattern.initialWave program.width)
  refine ⟨?_, ?_, ?_⟩
  · change Command.measuredBy (_ ++ _) = Command.measuredBy _
    rw [Command.measuredBy_append, noMeasure, sameMeasured, List.nil_append]
  · change Wave.follow bits (_ ++ _) _ = _
    rw [Wave.follow_append, sameWave]
  · change Wave.conditionals bits (_ ++ _) _ = _
    rw [Wave.conditionals_append, (Wave.normSq_follow bits noMeasure _).2,
      sameConditionals, List.nil_append]

/-- The guided run of the hoisted program follows the probabilities of the program to the
same end. -/
theorem guide_hoisted_follows
    (program : Program ℝ)
    {tolerance : ℝ}
    (nonneg : 0 ≤ tolerance)
    (bits : Qubit → Bool) :
    (program.hoisted.guide tolerance bits).Follows bits program.pattern.measured
      (Wave.conditionals bits program.pattern.commands
        (program.pattern.initialWave program.width))
      (Branch.along (program.pattern.initialWave program.width)
        program.pattern.commands bits).run := by
  obtain ⟨sameMeasured, sameWave, sameConditionals⟩ := program.follow_hoisted bits
  have sameEnd : Branch.along (program.pattern.initialWave program.width)
        program.hoisted.pattern.commands bits =
      Branch.along (program.pattern.initialWave program.width)
        program.pattern.commands bits := by
    have sameOrder : Command.measuredBy program.hoisted.pattern.commands =
        Command.measuredBy program.pattern.commands := sameMeasured
    unfold Branch.along
    rw [sameWave, sameOrder]
  rw [← sameMeasured, ← sameConditionals, ← sameEnd]
  exact program.hoisted.guide_follows nonneg bits

/-- Taking out the entanglements to the front preserves states exactly:
guided by the same bits, both programs show the same probabilities and end
in the same run, or are refused at the same measurement. -/
theorem hoisting_keeps_states
    (program : Program ℝ)
    {tolerance : ℝ}
    (nonneg : 0 ≤ tolerance) :
    (∃ others,
      program.hoisted.pattern.commands =
        program.pattern.commands.filter Command.isEntangle ++ others ∧
      ∀ command ∈ others, command.isEntangle = false) ∧
    (∃ branches, program.branches tolerance = .ok branches ∧
      program.hoisted.branches tolerance = .ok branches) ∧
    ∀ bits : Qubit → Bool,
      Wave.follow bits program.hoisted.pattern.commands
          (program.pattern.initialWave program.width) =
        Wave.follow bits program.pattern.commands
          (program.pattern.initialWave program.width) ∧
      Wave.conditionals bits program.hoisted.pattern.commands
          (program.pattern.initialWave program.width) =
        Wave.conditionals bits program.pattern.commands
          (program.pattern.initialWave program.width) ∧
      (program.hoisted.guide tolerance bits).odds = (program.guide tolerance bits).odds ∧
      (Wave.Kept bits program.pattern.commands
          (program.pattern.initialWave program.width) →
        ∃ final, (program.guide tolerance bits).result = .ok final ∧
          (program.hoisted.guide tolerance bits).result = .ok final ∧
          final.outcome = .along bits program.pattern.measured ∧
          final.register.wave =
            (Wave.follow bits program.pattern.commands
              (program.pattern.initialWave program.width)).normalized) ∧
      (¬Wave.Kept bits program.pattern.commands
          (program.pattern.initialWave program.width) →
        ∃ qubit share index other,
          share ≤ Scalar.probabilityFloor ∧
          (program.guide tolerance bits).result =
            .error (.numeric (.impossibleOutcome qubit (bits qubit) index) share
              Scalar.probabilityFloor) ∧
          (program.hoisted.guide tolerance bits).result =
            .error (.numeric (.impossibleOutcome qubit (bits qubit) other) share
              Scalar.probabilityFloor)) := by
  refine ⟨⟨(StandardForm.separate program.pattern.commands).others, ?_,
      fun _ => StandardForm.isEntangle_of_mem_others⟩,
    ⟨_, program.branches_eq_ok nonneg, ?_⟩, fun bits => ?_⟩
  · rw [← StandardForm.entanglements_separate]
    rfl
  · refine (program.hoisted.branches_eq_ok nonneg).trans (congrArg Except.ok ?_)
    exact Branch.kept_congr (program.follow_hoisted fun _ => false).1
      (fun bits => (program.follow_hoisted bits).2.1)
      fun bits => (program.follow_hoisted bits).2.2
  · obtain ⟨_, sameWave, sameConditionals⟩ := program.follow_hoisted bits
    obtain ⟨sameOdds, ends, refused⟩ :=
      (program.guide_follows nonneg bits).same (program.guide_hoisted_follows nonneg bits)
    have kept : firstRefused program.pattern.measured
          (Wave.conditionals bits program.pattern.commands
            (program.pattern.initialWave program.width)) = none ↔
        Wave.Kept bits program.pattern.commands
          (program.pattern.initialWave program.width) :=
      firstRefused_eq_none_iff (Wave.length_conditionals ..)
    refine ⟨sameWave, sameConditionals, sameOdds, fun all => ?_, fun notAll => ?_⟩
    · obtain ⟨first, second⟩ := ends (kept.2 all)
      exact ⟨_, first, second, Branch.outcome_along program.lawful.legal _ bits,
        Branch.wave_along ..⟩
    · exact refused fun none => notAll (kept.1 none)

/-- A program whose entanglements come after a measurement and after the X corrections
that it controls. -/
noncomputable def belated : Program ℝ where
  pattern :=
    { preparations := [.ancillas [0, 1, 2]]
      commands :=
        [.measure 0 1 [] [], .correctX 2 [0], .entangle 1 2, .correctX 2 [0],
          .entangle 2 1, .measure 1 (-1) [0] [0], .correctZ 2 [1]] }
  width := 3
  accepted := rfl

theorem hoisting_keeps_states_belated :
    belated.hoisted.pattern.commands =
      [.entangle 1 2, .entangle 2 1, .measure 0 1 [] [], .correctX 2 [0],
        .correctZ 1 [0], .correctZ 1 [0], .correctX 2 [0], .correctZ 1 [0],
        .measure 1 (-1) [0] [0], .correctZ 2 [1]] ∧
    (∀ bits, (belated.hoisted.guide 0 bits).odds = (belated.guide 0 bits).odds) ∧
    ∃ bits final, (belated.guide 0 bits).result = .ok final ∧
      (belated.hoisted.guide 0 bits).result = .ok final := by
  obtain ⟨_, _, same⟩ := hoisting_keeps_states belated le_rfl
  obtain ⟨bits, kept, _⟩ := belated.exists_shoot_eq_ok le_rfl (Stream'.const (0 : ℝ))
  obtain ⟨final, first, second, _⟩ := (same bits).2.2.2.1 kept
  exact ⟨rfl, fun bits => (same bits).2.2.1, bits, final, first, second⟩

end Program

end MeasurementCalculus
