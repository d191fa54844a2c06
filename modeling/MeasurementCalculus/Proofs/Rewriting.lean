import MeasurementCalculus.Proofs.Breaches
import MeasurementCalculus.Proofs.Commutation
import MeasurementCalculus.Proofs.SignalFlow

/-!
# Rewriting without effect

Some commands together do nothing: an entanglement that is made twice, two
corrections of one kind on one qubit whose signals have the same parity, and a
correction whose signals cancel. A signal list can be replaced by one with the
same parity. Such rewritings exchange commands for others that act alike on
every wave, so the runs stay the same.
-/

namespace MeasurementCalculus

namespace Command

variable {R : Type}

/-! ## Commands without effect -/

/-- Commands that together do nothing, whatever the recorded outcomes are. -/
inductive Idle : List (Command R) → Prop
  /-- An entanglement that is made twice. -/
  | entangle (first second : Qubit) :
      Idle [.entangle first second, .entangle first second]
  /-- An entanglement that is made twice, the second time in the other order. -/
  | entangleBack (first second : Qubit) :
      Idle [.entangle first second, .entangle second first]
  /-- Two X corrections that fire together. -/
  | correctX (qubit : Qubit) {signals others : Signals}
      (same : signals.SameParity others) :
      Idle [.correctX qubit signals, .correctX qubit others]
  /-- Two Z corrections that fire together. -/
  | correctZ (qubit : Qubit) {signals others : Signals}
      (same : signals.SameParity others) :
      Idle [.correctZ qubit signals, .correctZ qubit others]
  /-- An X correction that never fires. -/
  | cancelledX (qubit : Qubit) {signals : Signals}
      (cancel : signals.cancels = true) :
      Idle [.correctX qubit signals]
  /-- A Z correction that never fires. -/
  | cancelledZ (qubit : Qubit) {signals : Signals}
      (cancel : signals.cancels = true) :
      Idle [.correctZ qubit signals]

/-- The same command with other signal lists of the same parities. -/
inductive Rephrases : Command R → Command R → Prop
  | measure (qubit : Qubit) (angle : R) {s t otherS otherT : Signals}
      (sameS : s.SameParity otherS)
      (sameT : t.SameParity otherT) :
      Rephrases (.measure qubit angle s t) (.measure qubit angle otherS otherT)
  | correctX (qubit : Qubit) {signals others : Signals}
      (same : signals.SameParity others) :
      Rephrases (.correctX qubit signals) (.correctX qubit others)
  | correctZ (qubit : Qubit) {signals others : Signals}
      (same : signals.SameParity others) :
      Rephrases (.correctZ qubit signals) (.correctZ qubit others)

theorem Idle.measuredBy_eq_nil
    {commands : List (Command R)}
    (idle : Idle commands) :
    measuredBy commands = [] := by
  cases idle <;> rfl

theorem Rephrases.measured?_eq
    {command other : Command R}
    (rephrases : command.Rephrases other) :
    other.measured? = command.measured? := by
  cases rephrases <;> rfl

theorem Rephrases.targets_eq
    {command other : Command R}
    (rephrases : command.Rephrases other) :
    other.targets = command.targets := by
  cases rephrases <;> rfl

/-- A rephrased command is legal if its signals are measured. -/
theorem Rephrases.legal
    {command other : Command R}
    (rephrases : command.Rephrases other)
    {width : Nat}
    {measured : List Qubit}
    (legal : command.Legal width measured)
    (recorded : ∀ signal ∈ other.signals, signal ∈ measured) :
    other.Legal width measured where
  target_lt := rephrases.targets_eq ▸ legal.target_lt
  target_notMem := rephrases.targets_eq ▸ legal.target_notMem
  targets_nodup := rephrases.targets_eq ▸ legal.targets_nodup
  signal_mem := recorded

/-- Idle commands leave every wave as it is. -/
theorem Idle.actsLike
    {commands : List (Command ℝ)}
    (idle : Idle commands)
    (n : Nat) :
    ActsLike n commands [] := by
  have unmeasured : measuredBy commands = (none : Option Qubit).toList :=
    idle.measuredBy_eq_nil
  refine .of_follow_eq unmeasured rfl fun bits wave => ?_
  cases idle with
  | entangle first second => exact Wave.controlledZAt_controlledZAt_self first second wave
  | entangleBack first second =>
      have twice := Wave.controlledZAt_controlledZAt_self first second wave
      rwa [Wave.controlledZAt_symm first second] at twice
  | correctX qubit same =>
      have together := same fun other => (bits other).toUInt8
      simp only [Wave.follow_cons, Wave.follow_nil, Wave.act, Signals.under]
      rw [together]
      exact Wave.gateAt_gateAt_self qubit
        (GateMatrix.onlyIf_mul_self GateMatrix.pauliX_mul_self _) wave
  | correctZ qubit same =>
      have together := same fun other => (bits other).toUInt8
      simp only [Wave.follow_cons, Wave.follow_nil, Wave.act, Signals.under]
      rw [together]
      exact Wave.gateAt_gateAt_self qubit
        (GateMatrix.onlyIf_mul_self GateMatrix.pauliZ_mul_self _) wave
  | @cancelledX qubit signals cancel =>
      have ineffective :
          ¬StandardForm.isEffective (.correctX qubit signals : Command ℝ) = true := by
        simp [StandardForm.isEffective, cancel]
      exact StandardForm.act_of_not_isEffective bits rfl ineffective wave
  | @cancelledZ qubit signals cancel =>
      have ineffective :
          ¬StandardForm.isEffective (.correctZ qubit signals : Command ℝ) = true := by
        simp [StandardForm.isEffective, cancel]
      exact StandardForm.act_of_not_isEffective bits rfl ineffective wave

/-- A rephrased command acts like the original one. -/
theorem Rephrases.actsLike
    {command other : Command ℝ}
    (rephrases : command.Rephrases other)
    (n : Nat) :
    ActsLike n [other] [command] := by
  have measured : measuredBy [command] = command.measured?.toList := by
    rw [measuredBy_cons, measuredBy_nil, List.append_nil]
  refine .of_follow_eq ?_ measured fun bits wave => ?_
  · rw [measuredBy_cons, rephrases.measured?_eq, measuredBy_nil, List.append_nil]
  · have same {signals others : Signals} (parities : signals.SameParity others) :
        others.under bits = signals.under bits := (parities _).symm
    cases rephrases with
    | measure qubit angle sameS sameT =>
        simp only [Wave.follow_cons, Wave.follow_nil, Wave.act, same sameS, same sameT]
    | correctX qubit parities =>
        simp only [Wave.follow_cons, Wave.follow_nil, Wave.act, same parities]
    | correctZ qubit parities =>
        simp only [Wave.follow_cons, Wave.follow_nil, Wave.act, same parities]

/-- Commands that can stand in the place of others. -/
inductive Neutral : List (Command R) → List (Command R) → Prop
  | idle {commands : List (Command R)} (idle : Idle commands) : Neutral [] commands
  | rephrased {command other : Command R} (rephrases : command.Rephrases other) :
      Neutral [command] [other]

namespace Neutral

variable {old new : List (Command R)}

theorem measuredBy_eq (neutral : Neutral old new) :
    measuredBy new = measuredBy old := by
  cases neutral with
  | idle idle => exact idle.measuredBy_eq_nil
  | rephrased rephrases => rw [measuredBy_cons, rephrases.measured?_eq, measuredBy_cons]

/-- The new commands are legal together if each of them is legal at the start. -/
theorem allLegal
    (neutral : Neutral old new)
    {width : Nat}
    {measured : List Qubit}
    (legal : ∀ command ∈ new, command.Legal width measured) :
    AllLegal width measured new := by
  cases neutral with
  | idle idle => exact (allLegal_iff_forall idle.measuredBy_eq_nil).2 legal
  | rephrased _ => exact ⟨legal _ (List.mem_singleton_self _), trivial⟩

theorem actsLike
    {old new : List (Command ℝ)}
    (neutral : Neutral old new)
    (n : Nat) :
    ActsLike n new old := by
  cases neutral with
  | idle idle => exact idle.actsLike n
  | rephrased rephrases => exact rephrases.actsLike n

end Neutral

end Command

/-! ## Rewriting at a position -/

namespace Pattern

variable {R : Type}

/-- A command that can be executed at a position: it acts on different qubits that are
prepared and not measured before, and reads only outcomes that are recorded before. -/
structure Admits
    (pattern : Pattern R)
    (index : Nat)
    (command : Command R) : Prop where
  /-- The targets are different. -/
  targets_nodup : command.targets.Nodup
  /-- Every target is prepared. -/
  prepared : ∀ target ∈ command.targets, target ∈ pattern.prepared
  /-- No target is measured before. -/
  unmeasured : ∀ target ∈ command.targets, ¬pattern.MeasuresBefore index target
  /-- Every signal is measured before. -/
  recorded : ∀ signal ∈ command.signals, pattern.MeasuresBefore index signal

/-- A rewriting of the commands at a position: idle commands are inserted there, or the
signal lists of the command that stands there are replaced. -/
inductive NeutralAt
    (pattern : Pattern R)
    (index : Nat) : List (Command R) → Prop
  /-- Insert idle commands that can be executed at the position. -/
  | insert {added : List (Command R)}
      (idle : Command.Idle added)
      (admitted : ∀ command ∈ added, pattern.Admits index command) :
      pattern.NeutralAt index
        (pattern.commands.take index ++ (added ++ pattern.commands.drop index))
  /-- Replace signal lists by lists of qubits that are measured before. -/
  | replace {command other : Command R}
      (there : pattern.commands[index]? = some command)
      (rephrases : command.Rephrases other)
      (recorded : ∀ signal ∈ other.signals, pattern.MeasuresBefore index signal) :
      pattern.NeutralAt index (pattern.commands.set index other)

/-- If the numbering has no gap, the commands that can be executed at a position are the
legal ones. -/
theorem admits_iff_legal
    {width : Nat}
    {pattern : Pattern R}
    (contiguous : pattern.prepared = List.range width)
    {index : Nat}
    {command : Command R} :
    pattern.Admits index command ↔
      command.Legal width (Command.measuredBy (pattern.commands.take index)) := by
  have inside (qubit : Qubit) : qubit ∈ pattern.prepared ↔ qubit < width := by
    rw [contiguous, List.mem_range]
  constructor
  · rintro ⟨nodup, prepared, unmeasured, recorded⟩
    exact
      { target_lt := fun target member => (inside target).1 (prepared target member)
        target_notMem := fun target member measured =>
          unmeasured target member (mem_measuredBy_take_iff.1 measured)
        targets_nodup := nodup
        signal_mem := fun signal member =>
          mem_measuredBy_take_iff.2 (recorded signal member) }
  · intro legal
    exact
      { targets_nodup := legal.targets_nodup
        prepared := fun target member => (inside target).2 (legal.target_lt target member)
        unmeasured := fun target member measured =>
          legal.target_notMem target member (mem_measuredBy_take_iff.2 measured)
        recorded := fun signal member =>
          mem_measuredBy_take_iff.1 (legal.signal_mem signal member) }

/-- A rewriting exchanges a few commands for others that are legal at the position. -/
theorem NeutralAt.exists_block
    {width index : Nat}
    {pattern : Pattern R}
    {commands : List (Command R)}
    (neutral : pattern.NeutralAt index commands)
    (lawful : pattern.Lawful width) :
    ∃ old new rest,
      pattern.commands = pattern.commands.take index ++ (old ++ rest) ∧
      commands = pattern.commands.take index ++ (new ++ rest) ∧
      Command.Neutral old new ∧
      ∀ command ∈ new, command.Legal width
        (Command.measuredBy (pattern.commands.take index)) := by
  cases neutral with
  | @insert added idle admitted =>
      exact ⟨[], added, _, (List.take_append_drop index _).symm, rfl, .idle idle,
        fun command member =>
          (admits_iff_legal lawful.prepared_eq).1 (admitted command member)⟩
  | @replace command other there rephrases recorded =>
      obtain ⟨inside, value⟩ := List.getElem?_eq_some_iff.1 there
      have split : pattern.commands = pattern.commands.take index ++
          command :: pattern.commands.drop (index + 1) := by
        rw [← value, ← List.drop_eq_getElem_cons inside, List.take_append_drop]
      have legal := lawful.legal
      rw [split, Command.allLegal_append] at legal
      refine ⟨[command], [other], _, split, ?_, .rephrased rephrases, fun single member => ?_⟩
      · exact List.set_eq_take_cons_drop other inside
      · rw [List.mem_singleton.1 member]
        exact rephrases.legal legal.2.1 fun signal listed =>
          mem_measuredBy_take_iff.2 (recorded signal listed)

/-- A rewritten pattern is well-formed for the same width. -/
theorem NeutralAt.check_eq_ok
    {width index : Nat}
    {pattern : Pattern R}
    {commands : List (Command R)}
    (neutral : pattern.NeutralAt index commands)
    (accepted : pattern.check = .ok width) :
    ({ pattern with commands } : Pattern R).check = .ok width := by
  rw [check_eq_ok_iff] at accepted ⊢
  obtain ⟨old, new, rest, split, rewritten, replaces, legalNew⟩ :=
    neutral.exists_block accepted
  refine ⟨accepted.declared_nodup, accepted.prepared_eq, ?_⟩
  have legal := accepted.legal
  rw [split] at legal
  change Command.AllLegal width [] commands
  rw [rewritten]
  exact legal.exchange (replaces.allLegal legalNew) replaces.measuredBy_eq

/-- Idle commands can be inserted only where each of them can be executed. -/
theorem admits_of_check_eq_ok
    {width index : Nat}
    {pattern : Pattern R}
    {added : List (Command R)}
    (idle : Command.Idle added)
    (accepted : ({ pattern with
      commands := pattern.commands.take index ++
        (added ++ pattern.commands.drop index) } : Pattern R).check = .ok width) :
    ∀ command ∈ added, pattern.Admits index command := by
  have lawful := (check_eq_ok_iff _ _).1 accepted
  have contiguous : pattern.prepared = List.range width := lawful.prepared_eq
  have legal := lawful.legal
  rw [Command.allLegal_append, Command.allLegal_append, List.nil_append,
    Command.allLegal_iff_forall idle.measuredBy_eq_nil] at legal
  exact fun command member =>
    (admits_iff_legal contiguous).2 (legal.2.1 command member)

end Pattern

/-- The program that comes out of a rewriting. -/
def Program.rewrite
    {R : Type}
    (program : Program R)
    {index : Nat}
    {commands : List (Command R)}
    (neutral : program.pattern.NeutralAt index commands) : Program R where
  pattern := { program.pattern with commands }
  width := program.width
  accepted := neutral.check_eq_ok program.accepted

namespace Program

variable {program : Program ℝ} {index : Nat} {commands : List (Command ℝ)}

theorem actsLike_rewrite
    (neutral : program.pattern.NeutralAt index commands)
    (n : Nat) :
    Command.ActsLike n commands program.pattern.commands := by
  obtain ⟨old, new, rest, split, rewritten, replaces, _⟩ :=
    neutral.exists_block program.lawful
  rw [split, rewritten]
  exact (replaces.actsLike n).in_context _ rest

theorem branches_rewrite
    (neutral : program.pattern.NeutralAt index commands)
    (tolerance : ℝ) :
    (program.rewrite neutral).branches tolerance = program.branches tolerance := by
  rcases le_or_gt 0 tolerance with nonneg | negative
  · rw [branches_eq_ok _ nonneg, branches_eq_ok _ nonneg]
    exact congrArg Except.ok ((actsLike_rewrite neutral _).kept_eq _)
  · unfold branches
    rw [start_eq_error _ negative, start_eq_error _ negative]
    rfl

theorem shoot_rewrite
    {G : Type}
    [DrawSource G ℝ]
    (neutral : program.pattern.NeutralAt index commands)
    (tolerance : ℝ)
    (source : G) :
    (program.rewrite neutral).shoot tolerance source = program.shoot tolerance source := by
  have alike := actsLike_rewrite neutral program.width
  refine shoot_congr ?_ (fun bits => ?_) tolerance source
  · exact alike.measuredBy_eq
  · exact alike.conditionals_eq bits _

/-- Idle commands can be inserted, and signal lists replaced by measured
ones with the same parities, at any position: the branches with their
registers, the distribution and the shots stay the same. -/
theorem rewriting_keeps_meaning :
    (∀ (R : Type) (pattern : Pattern R) (width index : Nat),
      pattern.check = .ok width →
        (∀ commands, pattern.NeutralAt index commands →
          ({ pattern with commands } : Pattern R).check = .ok width) ∧
        ∀ added, Command.Idle added →
          ({ pattern with
            commands := pattern.commands.take index ++
              (added ++ pattern.commands.drop index) } : Pattern R).check = .ok width →
            ∀ command ∈ added, pattern.Admits index command) ∧
    ∀ (program : Program ℝ) (index : Nat) (commands : List (Command ℝ))
      (neutral : program.pattern.NeutralAt index commands) (tolerance : ℝ),
      (program.rewrite neutral).branches tolerance = program.branches tolerance ∧
      (program.rewrite neutral).enumerate tolerance = program.enumerate tolerance ∧
      (∀ (G : Type) [DrawSource G ℝ] (source : G),
        (program.rewrite neutral).shoot tolerance source =
          program.shoot tolerance source) ∧
      (0 ≤ tolerance → ∃ branches,
        program.branches tolerance = .ok branches ∧
        (program.rewrite neutral).branches tolerance = .ok branches) := by
  refine ⟨fun R pattern width index accepted =>
      ⟨fun commands neutral => neutral.check_eq_ok accepted,
        fun added idle => Pattern.admits_of_check_eq_ok idle⟩,
    fun program index commands neutral tolerance => ⟨branches_rewrite neutral tolerance,
      ?_, fun G _ => shoot_rewrite neutral tolerance, fun nonneg => ?_⟩⟩
  · unfold enumerate
    rw [branches_rewrite neutral tolerance]
    rfl
  · exact ⟨_, program.branches_eq_ok nonneg,
      (branches_rewrite neutral tolerance).trans (program.branches_eq_ok nonneg)⟩

/-- Between the measurements the X correction is repeated with other signals of the same
parity, and the last measurement lists its signals several times. -/
theorem rewriting_keeps_meaning_adaptive :
    (∃ neutral : adaptive.pattern.NeutralAt 3
        [.entangle 0 1, .measure 0 (-1) [] [], .correctX 1 [0], .correctX 1 [0],
          .correctX 1 [0, 0, 0], .measure 1 1 [0] [0]],
      ∀ draws : Stream' ℝ,
        (adaptive.rewrite neutral).shoot 0 draws = adaptive.shoot 0 draws) ∧
    ∃ neutral : adaptive.pattern.NeutralAt 3
        [.entangle 0 1, .measure 0 (-1) [] [], .correctX 1 [0],
          .measure 1 1 [0, 0, 0] [0]],
      ({ adaptive.pattern with
        commands := [.entangle 0 1, .measure 0 (-1) [] [], .correctX 1 [0],
          .measure 1 1 [0, 0, 0] [0]] } : Pattern ℝ).check = .ok 2 ∧
      (adaptive.rewrite neutral).enumerate 1 = adaptive.enumerate 1 := by
  obtain ⟨accepted, same⟩ := rewriting_keeps_meaning
  have thrice : Signals.SameParity [0] [0, 0, 0] := fun lookup => by simp
  have recorded : adaptive.pattern.MeasuresBefore 3 0 := ⟨1, by decide, _, _, _, rfl⟩
  have unmeasured : ¬adaptive.pattern.MeasuresBefore 3 1 := by
    rw [← Pattern.mem_measuredBy_take_iff]
    simp [adaptive, Command.measuredBy, Command.measured?]
  have admitted {signals : Signals} (first : ∀ signal ∈ signals, signal = 0) :
      adaptive.pattern.Admits 3 (.correctX 1 signals) :=
    { targets_nodup := List.nodup_singleton 1
      prepared := by
        rintro _ (_ | ⟨_, ⟨⟩⟩)
        decide
      unmeasured := by
        rintro _ (_ | ⟨_, ⟨⟩⟩)
        exact unmeasured
      recorded := fun signal member => first signal member ▸ recorded }
  have repeated : adaptive.pattern.NeutralAt 3
      [.entangle 0 1, .measure 0 (-1) [] [], .correctX 1 [0], .correctX 1 [0],
        .correctX 1 [0, 0, 0], .measure 1 1 [0] [0]] := by
    refine .insert (.correctX 1 thrice) fun command member => ?_
    rcases List.mem_pair.1 member with rfl | rfl
    · exact admitted (by simp)
    · exact admitted (by simp)
  have replaced : adaptive.pattern.NeutralAt 3
      [.entangle 0 1, .measure 0 (-1) [] [], .correctX 1 [0],
        .measure 1 1 [0, 0, 0] [0]] := by
    have there : adaptive.pattern.commands[3]? = some (.measure 1 1 [0] [0]) := rfl
    exact .replace there (.measure 1 1 thrice fun _ => rfl) (by simpa using recorded)
  exact ⟨⟨repeated, (same _ _ _ repeated 0).2.2.1 _⟩, replaced,
    (accepted ℝ _ _ _ adaptive.accepted).1 _ replaced, (same _ _ _ replaced 1).2.1⟩

end Program

end MeasurementCalculus
