import MeasurementCalculus.Proofs.BornRule
import MeasurementCalculus.Run.Shot
import Mathlib.Data.Stream.Init

/-!
# Shots follow the enumeration

The enumeration takes every outcome whose probability exceeds the floor, and a
shot takes one that it draws, or the other one if the drawn one lies at or
below the floor. If an accepted total guarantees that one outcome exceeds the
floor, the shot goes on along one of the branches, and along no other one,
since branches have different outcomes.
-/

namespace MeasurementCalculus

/-! ## Accepted totals -/

namespace Scalar

/-- What holds of real numbers and of machine numbers alike: the terms of an ordinary
sum are ordinary, and an ordinary number lies above the floor or not. -/
structure FiniteComparable (R : Type) [Scalar R] : Prop where
  /-- A sum with an infinite or undefined term is infinite or undefined. -/
  finite_terms : ∀ first second : R, isFinite (first + second) = true →
    isFinite first = true ∧ isFinite second = true
  /-- Every ordinary number can be compared with the floor. -/
  le_floor_or_lt : ∀ value : R, isFinite value = true →
    value ≤ probabilityFloor ∨ probabilityFloor < value

theorem finiteComparable_real : FiniteComparable ℝ where
  finite_terms _ _ _ := ⟨rfl, rfl⟩
  le_floor_or_lt value _ := le_or_gt value probabilityFloor

variable {R : Type} [Scalar R]

/-- A tolerance with which a total of two probabilities is accepted only if one of
them exceeds the floor. -/
def Decisive (tolerance : R) : Prop :=
  ∀ (first second : R) (context : NumericContext),
    acceptTotal (first + second) tolerance context = .ok () →
      probabilityFloor < first ∨ probabilityFloor < second

/-- In exact arithmetic a tolerance is decisive unless it lets a total of twice the
floor pass. -/
theorem decisive_real
    {tolerance : ℝ}
    (small : tolerance < 1 - 2 * probabilityFloor) :
    Decisive tolerance := by
  intro first second context accepted
  rw [acceptTotal_real] at accepted
  split at accepted
  · next within =>
      have large := (abs_le.1 within).1
      by_contra below
      rw [not_or, not_lt, not_lt] at below
      linarith [below.1, below.2]
  · cases accepted

end Scalar

theorem isFinite_of_acceptTotal
    {R : Type}
    [Scalar R]
    {total tolerance : R}
    {context : NumericContext}
    (accepted : acceptTotal total tolerance context = .ok ()) :
    Scalar.isFinite total = true := by
  unfold acceptTotal at accepted
  split at accepted
  · cases accepted
  · next within =>
      rw [not_or, Bool.not_eq_false] at within
      exact within.2

namespace DrawSource

variable {G R : Type} [DrawSource G R]

/-- The source that remains after a number of draws. -/
def after : Nat → G → G
  | 0, source => source
  | count + 1, source => after count (draw source).2

theorem after_add
    (first second : Nat)
    (source : G) :
    after (first + second) source = after second (after first source) := by
  induction first generalizing source with
  | zero => rw [Nat.zero_add, after]
  | succ first inductionHypothesis =>
      rw [Nat.succ_add, after, after, inductionHypothesis]

/-- A sequence of draws is a source. -/
instance : DrawSource (Stream' R) R where
  draw draws := (draws.head, draws.tail)

end DrawSource

/-! ## One command -/

/-- A computation that succeeds on a list succeeds on each member. -/
theorem forall₂_of_mapM_eq_ok
    {ε α β : Type}
    {computation : α → Except ε β}
    {members : List α}
    {results : List β}
    (success : members.mapM computation = .ok results) :
    List.Forall₂ (fun member result => computation member = .ok result)
      members results := by
  induction members generalizing results with
  | nil =>
      cases success
      exact .nil
  | cons head tail inductionHypothesis =>
      rw [List.mapM_cons] at success
      obtain ⟨first, here, continued⟩ := bind_eq_ok success
      obtain ⟨rest, later, collected⟩ := bind_eq_ok continued
      cases collected
      exact .cons here (inductionHypothesis later)

theorem exists_mem_of_forall₂
    {α β : Type}
    {related : α → β → Prop}
    {members : List α}
    {results : List β}
    (pairs : List.Forall₂ related members results)
    {member : α}
    (inside : member ∈ members) :
    ∃ result ∈ results, related member result := by
  induction pairs with
  | nil => cases inside
  | cons here _ inductionHypothesis =>
      rcases List.mem_cons.1 inside with rfl | later
      · exact ⟨_, List.mem_cons_self, here⟩
      · obtain ⟨result, listed, there⟩ := inductionHypothesis later
        exact ⟨result, List.mem_cons_of_mem _ listed, there⟩

namespace PendingMeasurement

variable {R : Type} [Scalar R] {n : Nat}

/-- If the total is accepted, a draw selects an outcome above the floor. -/
theorem isPossible_choose
    (comparable : Scalar.FiniteComparable R)
    {tolerance : R}
    (decisive : Scalar.Decisive tolerance)
    {pending : PendingMeasurement R n}
    {context : NumericContext}
    (accepted : acceptTotal pending.total tolerance context = .ok ())
    (exclusive : ∀ outcome, pending.isPossible outcome = true →
      ¬pending.probability outcome ≤ Scalar.probabilityFloor)
    (draw : R) :
    pending.isPossible (pending.choose draw) = true := by
  obtain ⟨zeroFinite, oneFinite⟩ :=
    comparable.finite_terms _ _ (isFinite_of_acceptTotal accepted)
  have compared (outcome : Bool) :
      pending.probability outcome ≤ Scalar.probabilityFloor ∨
        pending.isPossible outcome = true := by
    rw [isPossible, decide_eq_true_iff]
    cases outcome with
    | false => exact comparable.le_floor_or_lt _ zeroFinite
    | true => exact comparable.le_floor_or_lt _ oneFinite
  obtain ⟨outcome, possible⟩ : ∃ outcome, pending.isPossible outcome = true := by
    rcases decisive _ _ _ accepted with zeroAbove | oneAbove
    · exact ⟨false, decide_eq_true zeroAbove⟩
    · exact ⟨true, decide_eq_true oneAbove⟩
  unfold choose
  generalize (!decide (draw * pending.total < pending.zeroProbability)) = drawn
  dsimp only
  split
  · next impossible =>
      -- The drawn outcome cannot occur, so the possible one is the other.
      have different : outcome ≠ drawn := by
        rintro rfl
        exact exclusive outcome possible impossible
      rwa [← Bool.eq_not_of_ne different]
  · next notBelow => exact (compared drawn).resolve_left notBelow

end PendingMeasurement

namespace Run

variable {R : Type} [Scalar R] {n : Nat}

theorem accepted_of_measurement_eq_ok
    {run : Run R n}
    {tolerance : R}
    {index : Nat}
    {qubit : Qubit}
    {angle : R}
    {s t : Signals}
    {pending : PendingMeasurement R n}
    (pends : run.measurement tolerance index qubit angle s t = .ok pending) :
    acceptTotal pending.total tolerance (.measurement qubit index) = .ok () := by
  obtain ⟨flipped, _, afterFlipped⟩ := bind_eq_ok pends
  obtain ⟨shifted, _, afterShifted⟩ := bind_eq_ok afterFlipped
  obtain ⟨measured, _, afterLocated⟩ := bind_eq_ok afterShifted
  obtain ⟨⟨⟩, accepted, same⟩ := bind_eq_ok afterLocated
  cases same
  exact accepted

theorem not_le_floor_of_collapse_eq_ok
    {run next : Run R n}
    {tolerance : R}
    {index : Nat}
    {pending : PendingMeasurement R n}
    {outcome : Bool}
    (collapsed : run.collapse tolerance index pending outcome = .ok next) :
    ¬pending.probability outcome ≤ Scalar.probabilityFloor := by
  intro impossible
  rw [collapse, if_pos impossible] at collapsed
  cases collapsed

end Run

namespace Branch

variable {R : Type} [Scalar R] {n : Nat}

/-- A branch that takes an outcome collapses its run. -/
theorem collapse_of_take_eq_ok
    {branch successor : Branch R n}
    {tolerance : R}
    {index : Nat}
    {pending : PendingMeasurement R n}
    {outcome : Bool}
    (taken : branch.take tolerance index pending outcome = .ok successor) :
    branch.run.collapse tolerance index pending outcome = .ok successor.run := by
  obtain ⟨run, collapsed, same⟩ := bind_eq_ok taken
  cases same
  exact collapsed

/-- A measurement that is enumerated takes every possible outcome. -/
theorem exists_collapse_eq_ok
    {tolerance : R}
    {index : Nat}
    {pending : PendingMeasurement R n}
    {branch : Branch R n}
    {successors : List (Branch R n)}
    (branched : ([false, true].filter pending.isPossible).mapM
      (branch.take tolerance index pending) = .ok successors)
    {outcome : Bool}
    (possible : pending.isPossible outcome = true) :
    ∃ successor ∈ successors,
      branch.run.collapse tolerance index pending outcome = .ok successor.run := by
  have either : outcome ∈ [false, true] := by
    cases outcome with
    | false => exact List.mem_cons_self
    | true => exact List.mem_cons_of_mem _ List.mem_cons_self
  obtain ⟨successor, member, taken⟩ :=
    exists_mem_of_forall₂ (forall₂_of_mapM_eq_ok branched)
      (List.mem_filter.2 ⟨either, possible⟩)
  exact ⟨successor, member, collapse_of_take_eq_ok taken⟩

/-- Where a branch can be continued by a command, a shot in the same state continues
along one of its successors and takes one draw for a measurement. -/
theorem exists_shotStep_eq_ok
    {G : Type}
    [DrawSource G R]
    (comparable : Scalar.FiniteComparable R)
    {tolerance : R}
    (decisive : Scalar.Decisive tolerance)
    {index : Nat}
    {command : Command R}
    {branch : Branch R n}
    {successors : List (Branch R n)}
    (stepped : step tolerance index command branch = .ok successors)
    (source : G) :
    ∃ successor ∈ successors,
      branch.run.shotStep tolerance index command source =
        .ok (successor.run,
          DrawSource.after command.measured?.toList.length source) := by
  rcases command.measured?_eq_none_or with noMeasure | ⟨qubit, angle, s, t, rfl⟩
  · rw [step_of_not_measure noMeasure] at stepped
    obtain ⟨run, applied, same⟩ := bind_eq_ok stepped
    cases same
    refine ⟨_, List.mem_singleton_self _, ?_⟩
    rw [Run.shotStep_of_not_measure noMeasure, applied, noMeasure]
    rfl
  · obtain ⟨pending, pends, branched⟩ := bind_eq_ok stepped
    have exclusive (outcome : Bool) (possible : pending.isPossible outcome = true) :
        ¬pending.probability outcome ≤ Scalar.probabilityFloor := by
      obtain ⟨_, _, collapsed⟩ := exists_collapse_eq_ok branched possible
      exact Run.not_le_floor_of_collapse_eq_ok collapsed
    obtain ⟨successor, member, collapsed⟩ := exists_collapse_eq_ok branched
      (PendingMeasurement.isPossible_choose comparable decisive
        (Run.accepted_of_measurement_eq_ok pends) exclusive
        (DrawSource.draw source).1)
    refine ⟨successor, member, ?_⟩
    rw [Run.shotStep, pends, ok_bind]
    dsimp only
    rw [collapsed]
    rfl

end Branch

/-! ## Different branches have different outcomes -/

namespace Outcome

theorem record_injective
    (outcome : Outcome)
    (qubit : Qubit) :
    Function.Injective (outcome.record qubit) := by
  intro first second same
  have bits := congrArg Outcome.bits same
  rw [bits_record, bits_record, List.append_right_inj, List.singleton_inj] at bits
  have shown := (Prod.mk.inj bits).2
  cases first <;> cases second <;> simp [Bool.toUInt8] at shown ⊢

end Outcome

namespace Run

variable {R : Type} [Scalar R] {n : Nat}

/-- A legal measurement is about a qubit that is not measured yet. -/
theorem fresh_of_measurement_eq_ok
    {measured : List Qubit}
    {run : Run R n}
    (recorded : run.Recorded measured)
    {qubit : Qubit}
    {angle : R}
    {s t : Signals}
    (legal : (Command.measure qubit angle s t).Legal n measured)
    {tolerance : R}
    {index : Nat}
    {pending : PendingMeasurement R n}
    (pends : run.measurement tolerance index qubit angle s t = .ok pending) :
    pending.qubit.val ∉ run.order := by
  have safe := measurement_endsSafely recorded legal tolerance index
  rw [pends] at safe
  rw [safe, recorded.order_eq]
  exact legal.target_notMem qubit (by simp)

/-- The collapse of a qubit that is not measured yet adds its value to the outcome. -/
theorem outcome_of_collapse_eq_ok
    {run next : Run R n}
    {tolerance : R}
    {index : Nat}
    {pending : PendingMeasurement R n}
    (fresh : pending.qubit.val ∉ run.order)
    {outcome : Bool}
    (collapsed : run.collapse tolerance index pending outcome = .ok next) :
    next.outcome = run.outcome.record pending.qubit outcome := by
  have safe := collapse_endsSafely run tolerance index pending outcome
  rw [collapsed] at safe
  obtain ⟨register, rfl⟩ := safe
  exact outcome_record fresh outcome

end Run

namespace Branch

variable {R : Type} [Scalar R] {n : Nat}

/-- The successors of a branch have different outcomes, each of which continues that
of the branch by one entry for a measurement. -/
theorem outcome_of_step_eq_ok
    {measured : List Qubit}
    {branch : Branch R n}
    (recorded : branch.run.Recorded measured)
    {command : Command R}
    (legal : command.Legal n measured)
    {tolerance : R}
    {index : Nat}
    {successors : List (Branch R n)}
    (stepped : step tolerance index command branch = .ok successors) :
    (successors.map fun successor => successor.run.outcome).Nodup ∧
      ∀ successor ∈ successors, ∃ entries : List (Qubit × UInt8),
        entries.length = command.measured?.toList.length ∧
        successor.run.outcome.bits = branch.run.outcome.bits ++ entries := by
  rcases command.measured?_eq_none_or with noMeasure | ⟨qubit, angle, s, t, rfl⟩
  · rw [step_of_not_measure noMeasure] at stepped
    obtain ⟨run, applied, same⟩ := bind_eq_ok stepped
    cases same
    refine ⟨List.nodup_singleton _, fun successor member => ⟨[], ?_, ?_⟩⟩
    · rw [noMeasure]
      rfl
    · rw [List.mem_singleton.1 member, List.append_nil]
      exact congrArg Outcome.bits (Run.outcome_of_apply_eq_ok applied)
  · obtain ⟨pending, pends, branched⟩ := bind_eq_ok stepped
    have fresh := Run.fresh_of_measurement_eq_ok recorded legal pends
    have taken := forall₂_of_mapM_eq_ok branched
    have records : ([false, true].filter pending.isPossible).map
          (branch.run.outcome.record pending.qubit) =
        successors.map fun successor => successor.run.outcome := by
      rw [← List.forall₂_eq_eq_eq, List.forall₂_map_left_iff,
        List.forall₂_map_right_iff]
      exact taken.imp fun _ _ takesIt =>
        (Run.outcome_of_collapse_eq_ok fresh (collapse_of_take_eq_ok takesIt)).symm
    constructor
    · rw [← records]
      exact ((by decide : [false, true].Nodup).filter _).map
        (Outcome.record_injective _ _)
    · intro successor member
      have continued : successor.run.outcome ∈
          ([false, true].filter pending.isPossible).map
            (branch.run.outcome.record pending.qubit) := by
        rw [records]
        exact List.mem_map_of_mem member
      obtain ⟨outcome, _, same⟩ := List.mem_map.1 continued
      rw [← same, Outcome.bits_record]
      exact ⟨_, rfl, rfl⟩

/-- If branches have different outcomes, then so have all their successors. -/
theorem nodup_outcome_flatten
    {measured : List Qubit}
    {branches : List (Branch R n)}
    (recorded : ∀ branch ∈ branches, branch.run.Recorded measured)
    {command : Command R}
    (legal : command.Legal n measured)
    {tolerance : R}
    {index : Nat}
    {groups : List (List (Branch R n))}
    (stepped : List.Forall₂ (fun branch successors =>
      step tolerance index command branch = .ok successors) branches groups)
    (nodup : (branches.map fun branch => branch.run.outcome).Nodup) :
    (groups.flatten.map fun branch => branch.run.outcome).Nodup := by
  induction stepped with
  | nil => exact List.nodup_nil
  | cons here later inductionHypothesis =>
      rw [List.forall_mem_cons] at recorded
      rw [List.map_cons, List.nodup_cons] at nodup
      obtain ⟨recordedHere, recordedRest⟩ := recorded
      obtain ⟨fresh, nodupRest⟩ := nodup
      obtain ⟨nodupHere, longer⟩ := outcome_of_step_eq_ok recordedHere legal here
      rw [List.flatten_cons, List.map_append, List.nodup_append]
      refine ⟨nodupHere, inductionHypothesis recordedRest nodupRest, ?_⟩
      intro first firstMember second secondMember same
      obtain ⟨successor, inside, rfl⟩ := List.mem_map.1 firstMember
      obtain ⟨other, elsewhere, rfl⟩ := List.mem_map.1 secondMember
      obtain ⟨group, listed, otherInside⟩ := List.mem_flatten.1 elsewhere
      obtain ⟨parent, parentListed, parentStepped⟩ :=
        exists_mem_of_forall₂ later.flip listed
      -- Both outcomes are one entry longer than those of the parents, or none is.
      obtain ⟨entries, length, bits⟩ := longer successor inside
      obtain ⟨otherEntries, otherLength, otherBits⟩ :=
        (outcome_of_step_eq_ok (recordedRest parent parentListed) legal
          parentStepped).2 other otherInside
      rw [same, otherBits] at bits
      have sameParent := (List.append_inj' bits (otherLength.trans length.symm)).1
      exact fresh (List.mem_map.2 ⟨parent, parentListed, Outcome.ext sameParent⟩)

theorem nodup_outcome_enumerateFrom
    {measured : List Qubit}
    {branches last : List (Branch R n)}
    (recorded : ∀ branch ∈ branches, branch.run.Recorded measured)
    {commands : List (Command R)}
    (legal : Command.AllLegal n measured commands)
    {tolerance : R}
    {index : Nat}
    (success : enumerateFrom tolerance index branches commands = .ok last)
    (nodup : (branches.map fun branch => branch.run.outcome).Nodup) :
    (last.map fun branch => branch.run.outcome).Nodup := by
  induction commands generalizing measured index branches with
  | nil =>
      cases success
      exact nodup
  | cons command rest inductionHypothesis =>
      obtain ⟨groups, stepped, continued⟩ := bind_eq_ok success
      have safe := mapM_step_endsSafely recorded legal.1 tolerance index
      rw [stepped] at safe
      exact inductionHypothesis safe legal.2 continued
        (nodup_outcome_flatten recorded legal.1 (forall₂_of_mapM_eq_ok stepped) nodup)

end Branch

/-! ## Ways through the enumeration -/

namespace Branch

variable {R : Type} [Scalar R] {n : Nat}

/-- A way through the enumeration of commands: before each of them and at the end, one
of the branches that are reached there, and each a successor of the one before. -/
structure Trace
    (tolerance : R)
    (index : Nat)
    (branches : List (Branch R n))
    (commands : List (Command R))
    (trace : Nat → Branch R n) : Prop where
  /-- At every place the trace is at a branch of the enumeration. -/
  occurs : ∀ place ≤ commands.length, ∃ reached,
    enumerateFrom tolerance index branches (commands.take place) = .ok reached ∧
      trace place ∈ reached
  /-- Every command continues the branch by one of its successors. -/
  successor : ∀ place command, commands[place]? = some command → ∃ successors,
    step tolerance (index + place) command (trace place) = .ok successors ∧
      trace (place + 1) ∈ successors

/-- Without commands a trace stays at one branch. -/
theorem trace_nil
    (tolerance : R)
    (index : Nat)
    {branches : List (Branch R n)}
    {branch : Branch R n}
    (member : branch ∈ branches) :
    Trace tolerance index branches [] fun _ => branch where
  occurs place _ := by
    rw [List.take_nil]
    exact ⟨branches, rfl, member⟩
  successor place command there := by cases there

/-- A trace is put behind a branch of which it starts at a successor. -/
theorem Trace.cons
    {tolerance : R}
    {index : Nat}
    {branches : List (Branch R n)}
    {groups : List (List (Branch R n))}
    {command : Command R}
    (stepped : branches.mapM (step tolerance index command) = .ok groups)
    {branch : Branch R n}
    (member : branch ∈ branches)
    {successors : List (Branch R n)}
    (branched : step tolerance index command branch = .ok successors)
    {rest : List (Command R)}
    {trace : Nat → Branch R n}
    (starts : trace 0 ∈ successors)
    (later : Trace tolerance (index + 1) groups.flatten rest trace) :
    Trace tolerance index branches (command :: rest)
      fun place => place.casesOn branch trace where
  occurs place below := by
    cases place with
    | zero => exact ⟨branches, rfl, member⟩
    | succ place =>
        obtain ⟨reached, enumerates, present⟩ :=
          later.occurs place (Nat.le_of_succ_le_succ below)
        refine ⟨reached, ?_, present⟩
        rw [List.take_succ_cons, enumerateFrom, stepped, ok_bind]
        exact enumerates
  successor place next there := by
    cases place with
    | zero =>
        obtain rfl := Option.some.inj there
        exact ⟨successors, branched, starts⟩
    | succ place =>
        have continued := later.successor place next there
        rwa [Nat.add_right_comm, Nat.add_assoc] at continued

end Branch

/-! ## A whole shot -/

namespace Branch

variable {R : Type} [Scalar R] {n : Nat} {G : Type} [DrawSource G R]

/-- Where branches can be continued to the end, a shot in the state of one of them
succeeds and follows a trace from there. -/
theorem exists_trace
    (comparable : Scalar.FiniteComparable R)
    {tolerance : R}
    (decisive : Scalar.Decisive tolerance)
    {index : Nat}
    {commands : List (Command R)}
    {branches last : List (Branch R n)}
    (success : enumerateFrom tolerance index branches commands = .ok last)
    {branch : Branch R n}
    (member : branch ∈ branches)
    (source : G) :
    ∃ trace : Nat → Branch R n,
      Trace tolerance index branches commands trace ∧
      trace 0 = branch ∧
      ∀ place ≤ commands.length,
        branch.run.shootFrom tolerance index source (commands.take place) =
          .ok ((trace place).run, DrawSource.after
            (Command.measuredBy (commands.take place)).length source) := by
  induction commands generalizing index branches branch source with
  | nil =>
      refine ⟨fun _ => branch, trace_nil tolerance index member, rfl, fun place _ => ?_⟩
      rw [List.take_nil]
      rfl
  | cons command rest inductionHypothesis =>
      obtain ⟨groups, stepped, continued⟩ := bind_eq_ok success
      obtain ⟨successors, listed, branched⟩ :=
        exists_mem_of_forall₂ (forall₂_of_mapM_eq_ok stepped) member
      obtain ⟨successor, inside, shot⟩ :=
        exists_shotStep_eq_ok comparable decisive branched source
      obtain ⟨trace, traces, starts, shoots⟩ := inductionHypothesis continued
        (List.mem_flatten.2 ⟨successors, listed, inside⟩)
        (DrawSource.after command.measured?.toList.length source)
      refine ⟨fun place => place.casesOn branch trace, ?_, rfl, fun place below => ?_⟩
      · exact traces.cons stepped member branched (starts ▸ inside)
      · cases place with
        | zero => rfl
        | succ place =>
            rw [List.take_succ_cons, Run.shootFrom, shot, ok_bind,
              Command.measuredBy_cons, List.length_append, DrawSource.after_add]
            exact shoots place (Nat.le_of_succ_le_succ below)

end Branch

namespace Program

variable {R : Type} [Scalar R] {G : Type} [DrawSource G R]

/-- A shot goes along one branch of the enumeration. The trace lists the branch before
each command and at the end. -/
structure Follows
    (program : Program R)
    (tolerance : R)
    (source : G)
    (trace : Nat → Branch R program.width) : Prop where
  /-- At every position the shot is in the state of the branch, and it has taken one
  draw for each measurement. -/
  runBefore_eq : ∀ index ≤ program.pattern.commands.length,
    program.runBefore tolerance source index =
      .ok ((trace index).run, DrawSource.after
        (Command.measuredBy (program.pattern.commands.take index)).length source)
  /-- At every position the branch is one of the enumeration, and it is the only one in
  this state. -/
  occurs_once : ∀ index ≤ program.pattern.commands.length,
    ∃ branches, program.branchesBefore tolerance index = .ok branches ∧
      ∃ place, branches[place]? = some (trace index) ∧
        ∀ (other : Nat) (branch : Branch R program.width),
          branches[other]? = some branch →
            branch.run = (trace index).run → other = place
  /-- Every command continues the branch by one of its successors. -/
  successor : ∀ index command, program.pattern.commands[index]? = some command →
    ∃ successors,
      Branch.step tolerance index command (trace index) = .ok successors ∧
        trace (index + 1) ∈ successors

omit [Scalar R] in
/-- Branches with different outcomes are told apart by their runs. -/
theorem exists_unique_place
    {n : Nat}
    {branches : List (Branch R n)}
    (nodup : (branches.map fun branch => branch.run.outcome).Nodup)
    {branch : Branch R n}
    (member : branch ∈ branches) :
    ∃ place, branches[place]? = some branch ∧
      ∀ (other : Nat) (candidate : Branch R n), branches[other]? = some candidate →
        candidate.run = branch.run → other = place := by
  obtain ⟨place, here⟩ := List.mem_iff_getElem?.1 member
  refine ⟨place, here, fun other candidate there same => ?_⟩
  have below : other < (branches.map fun branch => branch.run.outcome).length := by
    rw [List.length_map]
    exact (List.getElem?_eq_some_iff.1 there).1
  apply (List.getElem?_inj below nodup).1
  rw [List.getElem?_map, List.getElem?_map, there, here]
  exact congrArg (fun run => some run.outcome) same

/-- If the branches of a program can be enumerated, every shot follows one of them to
the end. -/
theorem exists_follows
    (comparable : Scalar.FiniteComparable R)
    {tolerance : R}
    (decisive : Scalar.Decisive tolerance)
    {program : Program R}
    {last : List (Branch R program.width)}
    (success : program.branches tolerance = .ok last)
    (source : G) :
    ∃ trace, program.Follows tolerance source trace ∧
      trace program.pattern.commands.length ∈ last := by
  obtain ⟨run, started, enumerated⟩ := bind_eq_ok success
  obtain ⟨trace, traces, _, shoots⟩ := Branch.exists_trace comparable decisive
    enumerated (List.mem_singleton_self _) source
  refine ⟨trace, ⟨fun index inside => ?_, fun index inside => ?_, ?_⟩, ?_⟩
  · rw [runBefore, started, ok_bind]
    exact shoots index inside
  · obtain ⟨reached, enumerates, present⟩ := traces.occurs index inside
    refine ⟨reached, ?_, exists_unique_place ?_ present⟩
    · rw [branchesBefore, started, ok_bind]
      exact enumerates
    · exact Branch.nodup_outcome_enumerateFrom (recorded_singleton_of_start_eq_ok started)
        (program.allLegal_take index) enumerates (List.nodup_singleton _)
  · intro index command there
    have stepped := traces.successor index command there
    rwa [Nat.zero_add] at stepped
  · obtain ⟨reached, enumerates, present⟩ := traces.occurs _ (Nat.le_refl _)
    rw [List.take_length, enumerated] at enumerates
    rwa [Except.ok.inj enumerates]

end Program

namespace Simulator

variable {R : Type} [Scalar R] {G : Type} [DrawSource G R]

/-- A shot refines the exact distribution. If accepted totals are decisive,
it succeeds for every source of draws, takes one draw for each measurement,
and follows exactly one branch in the same states. -/
theorem shoot_refines_exactDistribution
    (comparable : Scalar.FiniteComparable R)
    {simulator : Simulator R}
    (decisive : Scalar.Decisive simulator.tolerance)
    {program : Program R}
    {distribution : Distribution R}
    (success : simulator.exactDistribution program = .ok distribution) :
    (∀ source : G, ∃ outcome trace,
      program.shoot simulator.tolerance source =
        .ok (outcome, DrawSource.after program.pattern.measured.length source) ∧
      outcome ∈ distribution.keys ∧
      program.Follows simulator.tolerance source trace ∧
      (trace program.pattern.commands.length).run.outcome = outcome) ∧
    Scalar.FiniteComparable ℝ ∧
    ∀ tolerance : ℝ, tolerance < 1 - 2 * Scalar.probabilityFloor →
      Scalar.Decisive tolerance := by
  refine ⟨fun source => ?_, Scalar.finiteComparable_real,
    fun _ => Scalar.decisive_real⟩
  obtain ⟨_, _, enumerated⟩ := bind_eq_ok success
  rw [Program.enumerate_eq_tally] at enumerated
  obtain ⟨last, reached, counted⟩ := bind_eq_ok enumerated
  obtain ⟨_, _, same⟩ := bind_eq_ok counted
  obtain ⟨trace, follows, present⟩ :=
    program.exists_follows comparable decisive reached source
  refine ⟨_, trace, ?_, ?_, follows, rfl⟩
  · rw [Program.shoot_eq_bind_runBefore, follows.runBefore_eq _ (Nat.le_refl _),
      List.take_length]
    rfl
  · rw [← Except.ok.inj same, Tally.mem_keys_recordAll, List.map_map]
    exact .inr (List.mem_map_of_mem present)

theorem shoot_refines_adaptive :
    ∃ distribution,
      ({ tolerance := 1 / 2 } : Simulator ℝ).exactDistribution Program.adaptive =
          .ok distribution ∧
        ∀ draws : Stream' ℝ, ∃ outcome trace,
          Program.adaptive.shoot (1 / 2) draws = .ok (outcome, draws.tail.tail) ∧
          outcome ∈ distribution.keys ∧
          Program.adaptive.Follows (1 / 2) draws trace ∧
          (trace 4).run.outcome = outcome := by
  have below := Program.adaptive.total_pathDistribution_le_one
  have above := Program.adaptive.pow_le_total_pathDistribution
  have measurements : Program.adaptive.pattern.measured.length = 2 := rfl
  rw [measurements, Scalar.probabilityFloor_real] at above
  have enumerates : Program.adaptive.enumerate (1 / 2) =
      .ok Program.adaptive.pathDistribution := by
    rw [Program.adaptive.enumerate_eq (by norm_num), if_pos]
    rw [abs_le]
    constructor
    · linarith
    · linarith
  have decisive : Scalar.Decisive (1 / 2 : ℝ) := by
    apply Scalar.decisive_real
    rw [Scalar.probabilityFloor_real]
    norm_num
  have success : ({ tolerance := 1 / 2 } : Simulator ℝ).exactDistribution
      Program.adaptive = .ok Program.adaptive.pathDistribution := enumerates
  exact ⟨_, success, (shoot_refines_exactDistribution Scalar.finiteComparable_real
    decisive success).1⟩

end Simulator

end MeasurementCalculus
