import MeasurementCalculus.Proofs.Legality
import MeasurementCalculus.Proofs.Stores
import MeasurementCalculus.Run.Enumeration
import MeasurementCalculus.Run.Shot

/-!
# Runs of programs need no guard

The execution guards every access that could leave the register or read a
missing outcome. This module shows that no run of a program needs these
guards, whatever the arithmetic, the tolerance and the draws are. The
invariant says that a run has recorded, in both of its stores, exactly the
qubits that the commands so far measure.
-/

namespace MeasurementCalculus

theorem ok_bind
    {ε α β : Type}
    (value : α)
    (next : α → Except ε β) :
    (Except.ok value >>= next) = next value := rfl

/-- A sequence of computations succeeds only if each of them does. -/
theorem bind_eq_ok
    {ε α β : Type}
    {computation : Except ε α}
    {next : α → Except ε β}
    {result : β}
    (success : computation >>= next = .ok result) :
    ∃ value, computation = .ok value ∧ next value = .ok result := by
  cases computation with
  | error error => cases success
  | ok value => exact ⟨value, rfl, success⟩

/-- A computation that does not end with an internal fault, and whose result has
the given property if there is one. -/
def EndsSafely
    {R α : Type}
    (property : α → Prop) : Except (Error R) α → Prop
  | .ok value => property value
  | .error (.internal _) => False
  | .error _ => True

namespace EndsSafely

variable {R α β : Type}

theorem bind
    {first : α → Prop}
    {second : β → Prop}
    {computation : Except (Error R) α}
    {next : α → Except (Error R) β}
    (safe : EndsSafely first computation)
    (continued : ∀ value, first value → EndsSafely second (next value)) :
    EndsSafely second (computation >>= next) := by
  cases computation with
  | ok value => exact continued value safe
  | error error => cases error <;> exact safe

theorem mono
    {first second : α → Prop}
    {computation : Except (Error R) α}
    (safe : EndsSafely first computation)
    (weaker : ∀ value, first value → second value) :
    EndsSafely second computation := by
  cases computation with
  | ok value => exact weaker value safe
  | error error => cases error <;> exact safe

theorem ne_internal
    {property : α → Prop}
    {computation : Except (Error R) α}
    (safe : EndsSafely property computation)
    (fault : InternalFault) :
    computation ≠ .error (.internal fault) := by
  rintro rfl
  exact safe

/-- A computation on every member of a list is safe if it is safe on each. -/
theorem mapM
    {property : β → Prop}
    {computation : α → Except (Error R) β}
    {members : List α}
    (safe : ∀ member ∈ members, EndsSafely property (computation member)) :
    EndsSafely (fun results => ∀ result ∈ results, property result)
      (members.mapM computation) := by
  induction members with
  | nil =>
      intro result member
      cases member
  | cons head tail inductionHypothesis =>
      rw [List.mapM_cons]
      refine bind (safe head List.mem_cons_self) fun first headProperty => ?_
      refine bind (inductionHypothesis fun member inside =>
        safe member (List.mem_cons_of_mem _ inside)) fun rest tailProperty => ?_
      intro result member
      rcases List.mem_cons.1 member with rfl | later
      · exact headProperty
      · exact tailProperty result later

end EndsSafely

theorem acceptTotal_endsSafely
    {R : Type}
    [Scalar R]
    (total tolerance : R)
    (context : NumericContext) :
    EndsSafely (fun _ => True) (acceptTotal total tolerance context) := by
  unfold acceptTotal
  split
  · exact trivial
  · exact trivial

namespace Basis

variable {n : Nat}

/-- Both basis states of a pair lie inside the register, and the second one is the
first one with the digit of the qubit set. -/
theorem pairs_inside
    (qubit : Fin n)
    {low high : Basis n}
    (member : (low, high) ∈ pairs qubit) :
    low.val < dimension n ∧ high.val < dimension n ∧
      high.val = low.val ||| weight qubit := by
  obtain ⟨index, inside, same⟩ := List.mem_map.1 member
  obtain ⟨rfl, rfl⟩ := Prod.mk.inj same
  have unset : index.val.testBit (place qubit) = false := by
    simpa [bit] using (List.mem_filter.1 inside).2
  refine ⟨index.isLt, (toggle (unit qubit) index).isLt, ?_⟩
  apply Nat.eq_of_testBit_eq
  intro digit
  change (index.val ^^^ weight qubit).testBit digit = _
  rw [Nat.testBit_xor, Nat.testBit_or, testBit_weight]
  by_cases same : place qubit = digit
  · simp [← same, unset]
  · simp [same]

/-- No subtraction in the place of a qubit is truncated. -/
theorem place_add (qubit : Fin n) : qubit.val + 1 + place qubit = n := by
  unfold place
  omega

end Basis

namespace Run

variable {R : Type} {n : Nat}

/-- A run that can execute a command without leaving the register or missing an
outcome, and whose stores agree. -/
structure Ready
    (run : Run R n)
    (command : Command R) : Prop where
  /-- Every target is a qubit of the register. -/
  target_lt : ∀ target ∈ command.targets, target < n
  /-- Every signal has a recorded value. -/
  signal_recorded : ∀ signal ∈ command.signals, (run.value? signal).isSome
  /-- Every measured qubit is a qubit of the register. -/
  recorded_lt : ∀ qubit ∈ run.order, qubit < n
  /-- No qubit has been measured twice. -/
  order_nodup : run.order.Nodup
  /-- The outcome can be read. -/
  readOutcome_eq : run.readOutcome = .ok run.outcome
  /-- The outcome shows the values in the slots. -/
  bit?_eq : ∀ qubit, run.outcome.bit? qubit = run.value? qubit

theorem locate_eq_ok
    {qubit : Qubit}
    (inside : qubit < n) :
    (locate n qubit : Except (Error R) (Fin n)) = .ok ⟨qubit, inside⟩ :=
  dif_pos inside

/-- Signals that are recorded have a parity. -/
theorem parity_eq_ok
    {run : Run R n}
    {signals : Signals}
    (recorded : ∀ signal ∈ signals, (run.value? signal).isSome) :
    run.parity signals =
      .ok (signals.parity fun qubit => (run.value? qubit).getD 0) := by
  -- The induction is on the signals that are left, behind any parity of the earlier ones.
  have reads (odd : Bool) :
      signals.foldlM
          (fun odd qubit =>
            (run.readValue qubit).map fun value => odd ^^ Signals.isOdd value) odd =
        (.ok (odd ^^ signals.parity fun qubit => (run.value? qubit).getD 0) :
          Except (Error R) Bool) := by
    induction signals generalizing odd with
    | nil => simp [pure, Except.pure]
    | cons signal rest inductionHypothesis =>
        rw [List.forall_mem_cons] at recorded
        obtain ⟨value, filled⟩ := Option.isSome_iff_exists.1 recorded.1
        rw [List.foldlM_cons, readValue, filled]
        refine (inductionHypothesis recorded.2 _).trans ?_
        rw [Signals.parity_cons, filled, Option.getD_some, Bool.xor_assoc]
  rw [parity, reads, Bool.false_xor]

theorem Recorded.parity_eq_ok
    {measured : List Qubit}
    {run : Run R n}
    (recorded : run.Recorded measured)
    {signals : Signals}
    (inside : ∀ signal ∈ signals, signal ∈ measured) :
    run.parity signals =
      .ok (signals.parity fun qubit => (run.value? qubit).getD 0) :=
  Run.parity_eq_ok fun signal member =>
    (recorded.isSome_iff signal).2 (inside signal member)

/-- A legal command finds its targets and its signals. -/
theorem Recorded.ready
    {measured : List Qubit}
    {run : Run R n}
    (recorded : run.Recorded measured)
    (nodup : measured.Nodup)
    {command : Command R}
    (legal : command.Legal n measured) :
    run.Ready command where
  target_lt := legal.target_lt
  signal_recorded signal member :=
    (recorded.isSome_iff signal).2 (legal.signal_mem signal member)
  recorded_lt qubit member := by
    rw [recorded.order_eq, ← recorded.isSome_iff] at member
    exact lt_of_isSome_value? member
  order_nodup := recorded.order_eq ▸ nodup
  readOutcome_eq := recorded.readOutcome_eq_ok
  bit?_eq := recorded.bit?_outcome

/-! ## The start -/

/-- Every declared qubit is a qubit of the register. -/
theorem forM_locate_eq_ok
    {declared : List (Qubit × Ket R)}
    (below : ∀ declaration ∈ declared, declaration.1 < n) :
    (declared.forM fun declaration =>
      (locate n declaration.1 : Except (Error R) (Fin n)).map fun _ => ()) =
        .ok () := by
  induction declared with
  | nil => rfl
  | cons head tail inductionHypothesis =>
      change ((locate n head.1 : Except (Error R) (Fin n)).map fun _ => ()) >>=
        (fun _ => tail.forM _) = .ok ()
      rw [locate_eq_ok (below head List.mem_cons_self)]
      exact inductionHypothesis fun declaration member =>
        below declaration (List.mem_cons_of_mem _ member)

/-- In a list of declarations without repetition, a declared qubit is found with
the state it is declared in. -/
theorem lookup_eq_some_iff
    {declared : List (Qubit × Ket R)}
    (nodup : (declared.map Prod.fst).Nodup)
    (qubit : Qubit)
    (ket : Ket R) :
    declared.lookup qubit = some ket ↔ (qubit, ket) ∈ declared := by
  induction declared with
  | nil => simp
  | cons head tail inductionHypothesis =>
      rw [List.map_cons, List.nodup_cons] at nodup
      obtain ⟨headFresh, tailNodup⟩ := nodup
      rw [List.lookup_cons, List.mem_cons]
      split
      · next same =>
          have absent : (head.1, ket) ∉ tail := fun member =>
            headFresh (List.mem_map.2 ⟨_, member, rfl⟩)
          simp [absent, Prod.ext_iff, eq_of_beq same, eq_comm]
      · next different =>
          have apart : qubit ≠ head.1 := ne_of_beq_false (by simpa using different)
          simp [inductionHypothesis tailNodup, Prod.ext_iff, apart]

theorem lookup_reverse_eq_some_iff
    {declared : List (Qubit × Ket R)}
    (nodup : (declared.map Prod.fst).Nodup)
    (qubit : Qubit)
    (ket : Ket R) :
    declared.reverse.lookup qubit = some ket ↔ (qubit, ket) ∈ declared := by
  have nodupReverse : (declared.reverse.map Prod.fst).Nodup := by
    rw [List.map_reverse]
    exact List.pairwise_reverse.2 (nodup.imp Ne.symm)
  rw [lookup_eq_some_iff nodupReverse, List.mem_reverse]

/-- Every qubit of a lawful pattern has an initial state, the one it is declared
in. -/
theorem initialKets_eq_ok
    {width : Nat}
    {pattern : Pattern R}
    (lawful : pattern.Lawful width) :
    ∃ kets : Vector (Ket R) width,
      initialKets width pattern.declared = .ok kets ∧
        ∀ qubit : Fin width, (qubit.val, kets[qubit]) ∈ pattern.declared := by
  have below : ∀ declaration ∈ pattern.declared, declaration.1 < width :=
    fun declaration member =>
      (lawful.mem_declared_iff declaration.1).1 (List.mem_map_of_mem member)
  have found (qubit : Fin width) :
      ∃ ket, pattern.declared.reverse.lookup qubit.val = some ket := by
    obtain ⟨⟨same, ket⟩, member, rfl⟩ :=
      List.mem_map.1 ((lawful.mem_declared_iff qubit.val).2 qubit.isLt)
    exact ⟨ket, (lookup_reverse_eq_some_iff lawful.declared_nodup _ _).2 member⟩
  obtain ⟨ket, isFound⟩ := Classical.axiomOfChoice found
  refine ⟨Vector.ofFn ket, ?_, ?_⟩
  · unfold initialKets
    rw [forM_locate_eq_ok below, ok_bind]
    simp only [isFound]
    exact Vector.ofFnM_pure
  · intro qubit
    rw [← lookup_reverse_eq_some_iff lawful.declared_nodup, isFound qubit]
    simp

/-! ## Commands -/

variable [Scalar R]

/-- Commands that are not measurements change nothing but the register. -/
theorem exists_register_of_apply_eq_ok
    {run next : Run R n}
    {index : Nat}
    {command : Command R}
    (applied : run.apply index command = .ok next) :
    ∃ register, next = { run with register } := by
  cases command with
  | measure qubit angle s t => cases applied
  | entangle first second =>
      obtain ⟨a, _, afterFirst⟩ := bind_eq_ok applied
      obtain ⟨b, _, same⟩ := bind_eq_ok afterFirst
      cases same
      exact ⟨_, rfl⟩
  | correctX qubit signals =>
      obtain ⟨odd, _, afterParity⟩ := bind_eq_ok applied
      obtain ⟨a, _, same⟩ := bind_eq_ok afterParity
      cases same
      split
      · exact ⟨_, rfl⟩
      · exact ⟨run.register, rfl⟩
  | correctZ qubit signals =>
      obtain ⟨odd, _, afterParity⟩ := bind_eq_ok applied
      obtain ⟨a, _, same⟩ := bind_eq_ok afterParity
      cases same
      split
      · exact ⟨_, rfl⟩
      · exact ⟨run.register, rfl⟩

theorem outcome_of_apply_eq_ok
    {run next : Run R n}
    {index : Nat}
    {command : Command R}
    (applied : run.apply index command = .ok next) :
    next.outcome = run.outcome := by
  obtain ⟨register, rfl⟩ := exists_register_of_apply_eq_ok applied
  rfl

/-- A legal command that is not a measurement can be applied. -/
theorem apply_eq_ok
    {measured : List Qubit}
    {run : Run R n}
    (recorded : run.Recorded measured)
    {command : Command R}
    (legal : command.Legal n measured)
    (noMeasure : command.measured? = none)
    (index : Nat) :
    ∃ next, run.apply index command = .ok next := by
  cases command with
  | entangle first second =>
      obtain ⟨firstInside, _⟩ := legal.entangle_first
      obtain ⟨secondInside, _⟩ := legal.entangle_second
      rw [apply, locate_eq_ok firstInside, locate_eq_ok secondInside]
      exact ⟨_, rfl⟩
  | measure qubit angle s t => cases noMeasure
  | correctX qubit signals =>
      have inside := legal.target_lt qubit (by simp)
      have odd := recorded.parity_eq_ok legal.signal_mem
      rw [Command.signals_correctX] at odd
      rw [apply, odd, locate_eq_ok inside]
      exact ⟨_, rfl⟩
  | correctZ qubit signals =>
      have inside := legal.target_lt qubit (by simp)
      have odd := recorded.parity_eq_ok legal.signal_mem
      rw [Command.signals_correctZ] at odd
      rw [apply, odd, locate_eq_ok inside]
      exact ⟨_, rfl⟩

/-- A run that records nothing more has recorded what a command that is not a
measurement asks for. -/
theorem Recorded.apply
    {measured : List Qubit}
    {run next : Run R n}
    (recorded : run.Recorded measured)
    {index : Nat}
    {command : Command R}
    (noMeasure : command.measured? = none)
    (applied : run.apply index command = .ok next) :
    next.Recorded (command.measuredAfter measured) := by
  obtain ⟨register, rfl⟩ := exists_register_of_apply_eq_ok applied
  rw [Command.measuredAfter_of_none noMeasure]
  exact recorded.withRegister register

/-- The signals of a legal measurement can be read, and its qubit is found. -/
theorem measurement_endsSafely
    {measured : List Qubit}
    {run : Run R n}
    (recorded : run.Recorded measured)
    {qubit : Qubit}
    {angle : R}
    {s t : Signals}
    (legal : (Command.measure qubit angle s t).Legal n measured)
    (tolerance : R)
    (index : Nat) :
    EndsSafely (fun pending => pending.qubit.val = qubit)
      (run.measurement tolerance index qubit angle s t) := by
  have inside := legal.target_lt qubit (by simp)
  have sInside : ∀ signal ∈ s, signal ∈ measured := fun signal member =>
    legal.signal_mem signal (List.mem_append_left t member)
  have tInside : ∀ signal ∈ t, signal ∈ measured := fun signal member =>
    legal.signal_mem signal (List.mem_append_right s member)
  unfold measurement
  rw [recorded.parity_eq_ok sInside, recorded.parity_eq_ok tInside,
    locate_eq_ok inside]
  simp only [ok_bind]
  refine EndsSafely.bind (acceptTotal_endsSafely _ _ _) fun _ _ => ?_
  exact rfl

/-- A collapse changes the register and records the chosen outcome. -/
theorem collapse_endsSafely
    (run : Run R n)
    (tolerance : R)
    (index : Nat)
    (pending : PendingMeasurement R n)
    (outcome : Bool) :
    EndsSafely
      (fun next => ∃ register,
        next = Run.record { run with register } pending.qubit outcome)
      (run.collapse tolerance index pending outcome) := by
  unfold collapse
  dsimp only
  split
  · exact trivial
  · refine EndsSafely.bind (acceptTotal_endsSafely _ _ _) fun _ _ => ?_
    exact ⟨_, rfl⟩

/-! ## Shots -/

section Shot

variable {G : Type} [DrawSource G R]

theorem shotStep_of_not_measure
    {command : Command R}
    (noMeasure : command.measured? = none)
    (tolerance : R)
    (index : Nat)
    (run : Run R n)
    (source : G) :
    run.shotStep tolerance index command source =
      (run.apply index command >>= fun next => .ok (next, source)) := by
  cases command with
  | measure qubit angle s t => cases noMeasure
  | entangle first second => rfl
  | correctX qubit signals => rfl
  | correctZ qubit signals => rfl

/-- A step of a shot records the qubit that its command measures. -/
theorem shotStep_endsSafely
    {measured : List Qubit}
    {run : Run R n}
    (recorded : run.Recorded measured)
    {command : Command R}
    (legal : command.Legal n measured)
    (tolerance : R)
    (index : Nat)
    (source : G) :
    EndsSafely (fun result => result.1.Recorded (command.measuredAfter measured))
      (run.shotStep tolerance index command source) := by
  rcases command.measured?_eq_none_or with noMeasure | ⟨qubit, angle, s, t, rfl⟩
  · obtain ⟨next, applied⟩ := apply_eq_ok recorded legal noMeasure index
    rw [shotStep_of_not_measure noMeasure, applied, ok_bind]
    exact recorded.apply noMeasure applied
  · refine EndsSafely.bind (measurement_endsSafely recorded legal _ _)
      fun pending sameQubit => ?_
    refine EndsSafely.bind (collapse_endsSafely _ _ _ _ _)
      fun next records => ?_
    obtain ⟨register, rfl⟩ := records
    rw [Command.measuredAfter_measure, ← sameQubit]
    exact (recorded.withRegister register).record pending.qubit _

/-- A shot of legal commands records the qubits that they measure. -/
theorem shootFrom_endsSafely
    {measured : List Qubit}
    {run : Run R n}
    (recorded : run.Recorded measured)
    {commands : List (Command R)}
    (legal : Command.AllLegal n measured commands)
    (tolerance : R)
    (index : Nat)
    (source : G) :
    EndsSafely
      (fun result =>
        result.1.Recorded (measured ++ Command.measuredBy commands))
      (run.shootFrom tolerance index source commands) := by
  induction commands generalizing measured run index source with
  | nil => simpa [shootFrom, EndsSafely] using recorded
  | cons command rest inductionHypothesis =>
      obtain ⟨head, tail⟩ := legal
      refine EndsSafely.bind (shotStep_endsSafely recorded head _ _ _)
        fun result next => ?_
      rw [Command.measuredBy_cons, ← List.append_assoc]
      exact inductionHypothesis next tail _ _

end Shot

end Run

namespace Branch

variable {R : Type} [Scalar R] {n : Nat}

theorem step_of_not_measure
    {command : Command R}
    (noMeasure : command.measured? = none)
    (tolerance : R)
    (index : Nat)
    (branch : Branch R n) :
    step tolerance index command branch =
      (branch.run.apply index command >>= fun run => .ok [{ branch with run }]) := by
  cases command with
  | measure qubit angle s t => cases noMeasure
  | entangle first second => rfl
  | correctX qubit signals => rfl
  | correctZ qubit signals => rfl

/-- A step on one branch records the measured qubit in each of its
successors. -/
theorem step_endsSafely
    {measured : List Qubit}
    {branch : Branch R n}
    (recorded : branch.run.Recorded measured)
    {command : Command R}
    (legal : command.Legal n measured)
    (tolerance : R)
    (index : Nat) :
    EndsSafely
      (fun successors => ∀ successor ∈ successors,
        successor.run.Recorded (command.measuredAfter measured))
      (step tolerance index command branch) := by
  rcases command.measured?_eq_none_or with noMeasure | ⟨qubit, angle, s, t, rfl⟩
  · obtain ⟨next, applied⟩ := Run.apply_eq_ok recorded legal noMeasure index
    rw [step_of_not_measure noMeasure, applied, ok_bind]
    intro successor member
    rw [List.mem_singleton.1 member]
    exact recorded.apply noMeasure applied
  · refine EndsSafely.bind (Run.measurement_endsSafely recorded legal _ _)
      fun pending sameQubit => ?_
    refine EndsSafely.mapM fun outcome _ => ?_
    refine EndsSafely.bind (Run.collapse_endsSafely _ _ _ _ _)
      fun next records => ?_
    obtain ⟨register, rfl⟩ := records
    rw [Command.measuredAfter_measure, ← sameQubit]
    exact (recorded.withRegister register).record pending.qubit outcome

/-- A step on all branches records the measured qubit in all their successors. -/
theorem mapM_step_endsSafely
    {measured : List Qubit}
    {branches : List (Branch R n)}
    (recorded : ∀ branch ∈ branches, branch.run.Recorded measured)
    {command : Command R}
    (legal : command.Legal n measured)
    (tolerance : R)
    (index : Nat) :
    EndsSafely
      (fun groups => ∀ successor ∈ groups.flatten,
        successor.run.Recorded (command.measuredAfter measured))
      (branches.mapM (step tolerance index command)) := by
  have each := EndsSafely.mapM fun branch member =>
    step_endsSafely (recorded branch member) legal tolerance index
  refine each.mono fun groups next successor member => ?_
  obtain ⟨group, inside, there⟩ := List.mem_flatten.1 member
  exact next group inside successor there

/-- Every branch of legal commands records the qubits that they measure. -/
theorem enumerateFrom_endsSafely
    {measured : List Qubit}
    {branches : List (Branch R n)}
    (recorded : ∀ branch ∈ branches, branch.run.Recorded measured)
    {commands : List (Command R)}
    (legal : Command.AllLegal n measured commands)
    (tolerance : R)
    (index : Nat) :
    EndsSafely
      (fun last => ∀ branch ∈ last,
        branch.run.Recorded (measured ++ Command.measuredBy commands))
      (enumerateFrom tolerance index branches commands) := by
  induction commands generalizing measured branches index with
  | nil => simpa [enumerateFrom, EndsSafely] using recorded
  | cons command rest inductionHypothesis =>
      obtain ⟨head, tail⟩ := legal
      refine EndsSafely.bind (mapM_step_endsSafely recorded head _ _)
        fun groups next => ?_
      rw [Command.measuredBy_cons, ← List.append_assoc]
      exact inductionHypothesis next tail _

end Branch

namespace Program

variable {R : Type} [Scalar R]

/-- A run starts with all preparations done and nothing recorded. -/
theorem start_endsSafely
    (program : Program R)
    (tolerance : R) :
    EndsSafely (fun run => run.Recorded []) (Run.start program tolerance) := by
  obtain ⟨kets, filled, _⟩ := Run.initialKets_eq_ok program.lawful
  unfold Run.start
  rw [filled, ok_bind]
  refine EndsSafely.bind (acceptTotal_endsSafely _ _ _) fun _ _ => ?_
  exact Run.recorded_blank _

theorem recorded_of_start_eq_ok
    {program : Program R}
    {tolerance : R}
    {run : Run R program.width}
    (started : Run.start program tolerance = .ok run) :
    run.Recorded [] := by
  have safe := program.start_endsSafely tolerance
  rw [started] at safe
  exact safe

/-- The enumeration starts with one branch, which has recorded nothing. -/
theorem recorded_singleton_of_start_eq_ok
    {program : Program R}
    {tolerance : R}
    {run : Run R program.width}
    (started : Run.start program tolerance = .ok run) :
    ∀ branch ∈ [(⟨run, 1⟩ : Branch R program.width)], branch.run.Recorded [] :=
  List.forall_mem_singleton.2 (recorded_of_start_eq_ok started)

omit [Scalar R] in
/-- A run that has recorded what the commands before a position measure is ready
for the command there. -/
theorem ready_getElem
    (program : Program R)
    {index : Nat}
    {command : Command R}
    (there : program.pattern.commands[index]? = some command)
    {run : Run R program.width}
    (recorded : run.Recorded
      (Command.measuredBy (program.pattern.commands.take index))) :
    run.Ready command :=
  recorded.ready (program.allLegal_take index).nodup_measuredBy
    (program.legal_getElem there)

/-- Every branch before the command at a position. -/
def branchesBefore
    (program : Program R)
    (tolerance : R)
    (index : Nat) : Except (Error R) (List (Branch R program.width)) := do
  let run ← Run.start program tolerance
  Branch.enumerateFrom tolerance 0 [⟨run, 1⟩]
    (program.pattern.commands.take index)

theorem branchesBefore_endsSafely
    (program : Program R)
    (tolerance : R)
    (index : Nat) :
    EndsSafely
      (fun branches => ∀ branch ∈ branches, branch.run.Recorded
        (Command.measuredBy (program.pattern.commands.take index)))
      (program.branchesBefore tolerance index) := by
  refine EndsSafely.bind (program.start_endsSafely tolerance)
    fun run recorded => ?_
  exact Branch.enumerateFrom_endsSafely (List.forall_mem_singleton.2 recorded)
    (program.allLegal_take index) tolerance 0

theorem branchesBefore_length
    (program : Program R)
    (tolerance : R) :
    program.branchesBefore tolerance program.pattern.commands.length =
      program.branches tolerance := by
  unfold branchesBefore branches
  rw [List.take_length]

theorem recorded_of_branches_eq_ok
    {program : Program R}
    {tolerance : R}
    {branches : List (Branch R program.width)}
    (success : program.branches tolerance = .ok branches) :
    ∀ branch ∈ branches, branch.run.Recorded program.pattern.measured := by
  have safe := program.branchesBefore_endsSafely tolerance program.pattern.commands.length
  rw [branchesBefore_length, success, List.take_length] at safe
  exact safe

/-- The enumeration tallies the outcomes of all branches, each of which can be read. -/
theorem enumerate_eq_tally
    (program : Program R)
    (tolerance : R) :
    program.enumerate tolerance = (do
      let branches ← program.branches tolerance
      let distribution : Distribution R := Tally.empty.recordAll <|
        branches.map fun branch => (branch.run.outcome, branch.probability)
      acceptTotal distribution.total tolerance .exactDistribution
      .ok distribution) := by
  unfold enumerate
  cases reached : program.branches tolerance with
  | error error => rfl
  | ok branches =>
      have reads : branches.mapM (fun branch =>
            branch.run.readOutcome.map fun outcome => (outcome, branch.probability)) =
          .ok (branches.map fun branch => (branch.run.outcome, branch.probability)) :=
        mapM_eq_ok_map fun branch member => by
          rw [(recorded_of_branches_eq_ok reached branch member).readOutcome_eq_ok]
          rfl
      rw [ok_bind, reads]
      rfl

theorem enumerate_endsSafely
    (program : Program R)
    (tolerance : R) :
    EndsSafely (fun _ => True) (program.enumerate tolerance) := by
  rw [enumerate_eq_tally, ← program.branchesBefore_length]
  refine EndsSafely.bind (program.branchesBefore_endsSafely _ _)
    fun branches _ => ?_
  exact EndsSafely.bind (acceptTotal_endsSafely _ _ _) fun _ _ => trivial

section Shot

variable {G : Type} [DrawSource G R]

/-- The run of a shot before the command at a position, and the source of its
further draws. -/
def runBefore
    (program : Program R)
    (tolerance : R)
    (source : G)
    (index : Nat) : Except (Error R) (Run R program.width × G) := do
  let run ← Run.start program tolerance
  run.shootFrom tolerance 0 source (program.pattern.commands.take index)

theorem runBefore_endsSafely
    (program : Program R)
    (tolerance : R)
    (source : G)
    (index : Nat) :
    EndsSafely
      (fun result => result.1.Recorded
        (Command.measuredBy (program.pattern.commands.take index)))
      (program.runBefore tolerance source index) := by
  refine EndsSafely.bind (program.start_endsSafely tolerance)
    fun run recorded => ?_
  exact Run.shootFrom_endsSafely recorded (program.allLegal_take index) _ _ _

/-- A shot returns the outcome of its run at the end, which can be read. -/
theorem shoot_eq_bind_runBefore
    (program : Program R)
    (tolerance : R)
    (source : G) :
    program.shoot tolerance source =
      (program.runBefore tolerance source program.pattern.commands.length >>=
        fun result => .ok (result.1.outcome, result.2)) := by
  have safe := program.runBefore_endsSafely tolerance source program.pattern.commands.length
  unfold shoot
  unfold runBefore at safe ⊢
  rw [List.take_length] at safe ⊢
  cases started : Run.start program tolerance with
  | error error => rfl
  | ok run =>
      rw [started, ok_bind] at safe
      rw [ok_bind, ok_bind]
      cases shot : run.shootFrom tolerance 0 source program.pattern.commands with
      | error error => rfl
      | ok result =>
          obtain ⟨final, rest⟩ := result
          rw [shot] at safe
          rw [ok_bind]
          dsimp only
          rw [Run.Recorded.readOutcome_eq_ok safe]
          rfl

theorem shoot_endsSafely
    (program : Program R)
    (tolerance : R)
    (source : G) :
    EndsSafely (fun _ => True) (program.shoot tolerance source) := by
  have safe := program.runBefore_endsSafely tolerance source program.pattern.commands.length
  rw [shoot_eq_bind_runBefore]
  exact safe.bind fun _ _ => trivial

/-- A program that passed the check runs without internal fault, whatever
the arithmetic, the tolerance and the draws are. Every command finds its
targets and signals, and both stores of a run agree. -/
theorem executes_without_internal_fault
    (program : Program R)
    (tolerance : R) :
    (∀ declaration ∈ program.pattern.declared,
      declaration.1 < program.width) ∧
    (∃ kets : Vector (Ket R) program.width,
      Run.initialKets program.width program.pattern.declared = .ok kets ∧
        ∀ qubit : Fin program.width,
          (qubit.val, kets.get qubit) ∈ program.pattern.declared) ∧
    (∀ qubit : Fin program.width,
      qubit.val + 1 + Basis.place qubit = program.width ∧
        ∀ low high, (low, high) ∈ Basis.pairs qubit →
          low.val < dimension program.width ∧
            high.val < dimension program.width ∧
            high.val = low.val ||| Basis.weight qubit) ∧
    (∀ (source : G) (fault : InternalFault),
      program.shoot tolerance source ≠ .error (.internal fault)) ∧
    (∀ fault : InternalFault,
      program.enumerate tolerance ≠ .error (.internal fault)) ∧
    ∀ (index : Nat) (command : Command R),
      program.pattern.commands[index]? = some command →
        (∀ (source rest : G) (run : Run R program.width),
          program.runBefore tolerance source index = .ok (run, rest) →
            run.Ready command) ∧
        ∀ branches : List (Branch R program.width),
          program.branchesBefore tolerance index = .ok branches →
            ∀ branch ∈ branches, branch.run.Ready command := by
  refine ⟨fun declaration member => ?_,
    Run.initialKets_eq_ok program.lawful,
    fun qubit => ⟨Basis.place_add qubit, fun _ _ => Basis.pairs_inside qubit⟩,
    fun source => (program.shoot_endsSafely tolerance source).ne_internal,
    (program.enumerate_endsSafely tolerance).ne_internal,
    fun index command there => ⟨fun source rest run reached => ?_,
      fun branches reached branch member => ?_⟩⟩
  · exact (program.lawful.mem_declared_iff declaration.1).1
      (List.mem_map_of_mem member)
  · have safe := program.runBefore_endsSafely tolerance source index
    rw [reached] at safe
    exact program.ready_getElem there safe
  · have safe := program.branchesBefore_endsSafely tolerance index
    rw [reached] at safe
    exact program.ready_getElem there (safe branch member)

end Shot

end Program

end MeasurementCalculus
