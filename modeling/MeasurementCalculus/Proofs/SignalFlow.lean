import MeasurementCalculus.Proofs.Standardization

/-!
# Where the signals go

Bringing commands into standard form moves signals from one list to another,
step by step. The result has a closed form in terms of the original commands:
a measurement collects its own signals, those of the corrections of its qubit,
and those of every X correction that crosses an entanglement to it. Lists are
compared by their parities, and every copy counts.
-/

namespace MeasurementCalculus

namespace Signals

/-- Lists with the same parity, whatever the recorded outcomes are. -/
def SameParity (first second : Signals) : Prop :=
  ∀ lookup : Qubit → UInt8, parity lookup first = parity lookup second

theorem SameParity.trans
    {first second third : Signals}
    (before : SameParity first second)
    (after : SameParity second third) :
    SameParity first third := fun lookup =>
  (before lookup).trans (after lookup)

/-- The order of the signals does not matter. -/
theorem parity_perm
    (lookup : Qubit → UInt8)
    {first second : Signals}
    (perm : first.Perm second) :
    parity lookup first = parity lookup second := by
  induction perm with
  | nil => rfl
  | cons qubit _ inductionHypothesis =>
      rw [parity_cons, parity_cons, inductionHypothesis]
  | swap qubit other rest =>
      simp only [parity_cons]
      exact Bool.xor_left_comm _ _ _
  | trans _ _ firstSame secondSame => exact firstSame.trans secondSame

/-- Merging lists into another one adds up all parities. -/
theorem parity_foldl_merge
    (lookup : Qubit → UInt8)
    (signals : Signals)
    (lists : List Signals) :
    parity lookup (lists.foldl merge signals) =
      (parity lookup signals ^^ parity lookup lists.flatten) := by
  induction lists generalizing signals with
  | nil => simp
  | cons list rest inductionHypothesis =>
      rw [List.foldl_cons, inductionHypothesis, parity_merge, List.flatten_cons,
        parity_append, Bool.xor_assoc]

/-- The order in which lists are merged does not matter. -/
theorem sameParity_foldl_merge
    (signals : Signals)
    {lists others : List Signals}
    (perm : lists.Perm others) :
    SameParity (lists.foldl merge signals) (others.foldl merge signals) := by
  intro lookup
  rw [parity_foldl_merge, parity_foldl_merge, parity_perm lookup perm.flatten]

/-- Lists that cancel do not matter. -/
theorem sameParity_foldl_merge_filter
    (signals : Signals)
    (lists : List Signals) :
    SameParity ((lists.filter fun list => !list.cancels).foldl merge signals)
      (lists.foldl merge signals) := by
  intro lookup
  rw [parity_foldl_merge, parity_foldl_merge]
  congr 1
  induction lists with
  | nil => rfl
  | cons list rest inductionHypothesis =>
      rw [List.flatten_cons, parity_append, ← inductionHypothesis]
      cases cancels : list.cancels with
      | false => simp [cancels, parity_append]
      | true => simp [cancels, parity_of_cancels cancels]

end Signals

namespace Command

variable {R : Type}

/-- Whether a command entangles the two given qubits, in either order. -/
def joins (first second : Qubit) : Command R → Bool
  | .entangle one other =>
      (one == first && other == second) || (one == second && other == first)
  | _ => false

/-- Commands that measure the same qubit are the same if no qubit is measured twice. -/
theorem eq_of_measured?_eq
    {commands : List (Command R)}
    (nodup : (measuredBy commands).Nodup)
    {first second : Command R}
    (firstMember : first ∈ commands)
    (secondMember : second ∈ commands)
    {qubit : Qubit}
    (firstMeasures : first.measured? = some qubit)
    (secondMeasures : second.measured? = some qubit) :
    first = second := by
  induction commands with
  | nil => cases firstMember
  | cons head rest inductionHypothesis =>
      have listed {command : Command R}
          (member : command ∈ rest)
          (measures : command.measured? = some qubit) :
          qubit ∈ measuredBy rest :=
        List.mem_filterMap.2 ⟨command, member, measures⟩
      rw [measuredBy_cons, List.nodup_append] at nodup
      obtain ⟨_, nodupRest, apart⟩ := nodup
      have fresh (measures : head.measured? = some qubit) :
          qubit ∉ measuredBy rest := fun later =>
        apart qubit (by simp [measures]) qubit later rfl
      rcases List.mem_cons.1 firstMember with rfl | firstLater
      · rcases List.mem_cons.1 secondMember with rfl | secondLater
        · rfl
        · exact absurd (listed secondLater secondMeasures) (fresh firstMeasures)
      · rcases List.mem_cons.1 secondMember with rfl | secondLater
        · exact absurd (listed firstLater firstMeasures) (fresh secondMeasures)
        · exact inductionHypothesis nodupRest firstLater secondLater

end Command

namespace StandardForm

open Command
open scoped List

variable {R : Type}

/-! ## The signals of corrections -/

/-- The signal lists of the X corrections on a qubit. -/
def flips
    (qubit : Qubit)
    (commands : List (Command R)) : List Signals :=
  commands.filterMap (signalsX? qubit)

/-- The signal lists of the Z corrections on a qubit. -/
def shifts
    (qubit : Qubit)
    (commands : List (Command R)) : List Signals :=
  commands.filterMap (signalsZ? qubit)

theorem shifts_append
    (qubit : Qubit)
    (first second : List (Command R)) :
    shifts qubit (first ++ second) = shifts qubit first ++ shifts qubit second :=
  List.filterMap_append

/-- The signal lists that X corrections on other qubits pass on to a qubit: that of each
of them, once for every later entanglement of its qubit with the given one. -/
def crossings (qubit : Qubit) : List (Command R) → List Signals
  | [] => []
  | .correctX source signals :: rest =>
      List.replicate (rest.countP (joins source qubit)) signals ++ crossings qubit rest
  | _ :: rest => crossings qubit rest

/-- The signals that a correction passes on to a qubit when an entanglement moves in
front of it. -/
def crossed?
    (qubit : Qubit)
    (entanglement passed : Command R) : Option Signals :=
  match passed with
  | .correctX source signals =>
      if joins source qubit entanglement then some signals else none
  | _ => none

/-- What an entanglement of different qubits leaves behind are the signals that it is
passed. -/
theorem bind_spawned
    {first second : Qubit}
    (different : first ≠ second)
    (qubit : Qubit)
    (command : Command R) :
    (spawned first second command).bind (signalsZ? qubit) =
      crossed? qubit (.entangle first second) command := by
  cases command with
  | entangle _ _ => rfl
  | measure _ _ _ _ => rfl
  | correctZ _ _ => rfl
  | correctX source signals =>
      simp only [spawned, crossed?, joins]
      grind [signalsZ?]

/-- One more command adds what the X corrections before it pass on to it. -/
theorem crossings_append_singleton
    (qubit : Qubit)
    (before : List (Command R))
    (command : Command R) :
    (crossings qubit (before ++ [command])).Perm
      (crossings qubit before ++ before.filterMap (crossed? qubit command)) := by
  induction before with
  | nil => cases command <;> exact .refl _
  | cons head rest inductionHypothesis =>
      cases head with
      | entangle _ _ => exact inductionHypothesis
      | measure _ _ _ _ => exact inductionHypothesis
      | correctZ _ _ => exact inductionHypothesis
      | correctX source signals =>
          have shown : crossed? qubit command (.correctX source signals) =
              if joins source qubit command then some signals else none := rfl
          rw [List.cons_append, crossings, crossings, List.countP_append,
            List.countP_singleton]
          refine ((inductionHypothesis.append_left _).trans ?_)
          cases joined : joins source qubit command with
          | false =>
              rw [joined, if_neg Bool.false_ne_true] at shown
              rw [List.filterMap_cons_none shown, List.append_assoc]
              exact .refl _
          | true =>
              rw [joined, if_pos rfl] at shown
              rw [List.filterMap_cons_some shown, if_pos rfl, List.replicate_succ,
                List.cons_append, ← List.append_assoc]
              exact List.perm_middle.symm

/-! ## Entanglements in front -/

theorem flips_separate
    (qubit : Qubit)
    (commands : List (Command R)) :
    flips qubit (separate commands).others = flips qubit commands :=
  filterMap_separate _ (fun _ _ => rfl) (fun _ _ => rfl) commands

/-- Taking out the entanglements adds the signals that X corrections pass on. -/
theorem shifts_separate_perm
    (qubit : Qubit)
    {commands : List (Command R)}
    (different : ∀ first second, .entangle first second ∈ commands → first ≠ second) :
    (shifts qubit (separate commands).others).Perm
      (shifts qubit commands ++ crossings qubit commands) := by
  -- An entanglement passes what stands before it, so the commands grow at the end.
  induction commands using List.reverseRecOn with
  | nil => exact .refl _
  | append_singleton before command inductionHypothesis =>
      have earlier := inductionHypothesis fun first second member =>
        different first second (List.mem_append_left _ member)
      have crossed := crossings_append_singleton qubit before command
      rw [separate_append_singleton]
      rcases command.isEntangle_eq_false_or with other | ⟨first, second, rfl⟩
      · have nothing : before.filterMap (crossed? qubit command) = [] := by
          rw [List.filterMap_eq_nil_iff]
          intro passed _
          cases passed with
          | correctX source signals =>
              cases command with
              | entangle _ _ => cases other
              | measure _ _ _ _ => rfl
              | correctX _ _ => rfl
              | correctZ _ _ => rfl
          | entangle _ _ => rfl
          | measure _ _ _ _ => rfl
          | correctZ _ _ => rfl
        rw [nothing, List.append_nil] at crossed
        rw [push_of_not_entangle _ other]
        calc shifts qubit ((separate before).others ++ [command])
            = shifts qubit (separate before).others ++ shifts qubit [command] :=
              List.filterMap_append
          _ ~ shifts qubit before ++ crossings qubit before ++ shifts qubit [command] :=
              earlier.append_right _
          _ ~ shifts qubit before ++ shifts qubit [command] ++ crossings qubit before := by
              rw [List.append_assoc, List.append_assoc]
              exact List.perm_append_comm.append_left _
          _ ~ shifts qubit (before ++ [command]) ++
                crossings qubit (before ++ [command]) := by
              rw [← shifts_append]
              exact crossed.symm.append_left _
      · have distinct := different first second
          (List.mem_append_right _ (List.mem_singleton_self _))
        have unshifted : shifts qubit [(.entangle first second : Command R)] = [] := rfl
        -- The X corrections to pass are those of the pattern: none has been added.
        have passed : (separate before).others.filterMap
              (crossed? qubit (.entangle first second)) =
            before.filterMap (crossed? qubit (.entangle first second)) :=
          filterMap_separate _ (fun _ _ => rfl) (fun _ _ => rfl) before
        calc shifts qubit (pass first second (separate before).others)
            ~ shifts qubit (separate before).others ++ (separate before).others.filterMap
                (crossed? qubit (.entangle first second)) := by
              rw [← funext (bind_spawned distinct qubit)]
              exact filterMap_pass_perm _ first second _
          _ ~ shifts qubit before ++ crossings qubit before ++
                before.filterMap (crossed? qubit (.entangle first second)) := by
              rw [passed]
              exact earlier.append_right _
          _ ~ shifts qubit (before ++ [.entangle first second]) ++
                crossings qubit (before ++ [.entangle first second]) := by
              rw [shifts_append, unshifted, List.append_nil, List.append_assoc]
              exact crossed.symm.append_left _

/-! ## Corrections at the end -/

/-- A correction acts on one qubit only. -/
theorem eq_of_corrects
    {first second : Qubit}
    {command : Command R}
    (onFirst : corrects first command = true)
    (onSecond : corrects second command = true) :
    first = second := by
  have same := (targets_of_corrects onFirst).symm.trans (targets_of_corrects onSecond)
  exact List.singleton_inj.1 same

/-- A view that shows the signals of some corrections on a qubit, and nothing else. -/
structure Watches
    (qubit : Qubit)
    (view : Command R → Option Signals) : Prop where
  /-- What is shown are the signals of the command. -/
  signals_eq : ∀ {command list}, view command = some list → command.signals = list
  /-- Only corrections on the qubit are shown. -/
  corrects : ∀ {command list}, view command = some list → corrects qubit command = true

theorem watches_signalsX? (qubit : Qubit) :
    Watches qubit (signalsX? qubit : Command R → Option Signals) where
  signals_eq := signals_of_signalsX?
  corrects shown := by simp [StandardForm.corrects, shown]

theorem watches_signalsZ? (qubit : Qubit) :
    Watches qubit (signalsZ? qubit : Command R → Option Signals) where
  signals_eq := signals_of_signalsZ?
  corrects shown := by simp [StandardForm.corrects, shown]

namespace Watches

variable {qubit : Qubit} {view : Command R → Option Signals}

theorem eq_none_of_not_corrects
    (watches : Watches qubit view)
    {command : Command R}
    (apart : StandardForm.corrects qubit command = false) :
    view command = none := by
  cases shown : view command with
  | none => rfl
  | some list =>
      rw [watches.corrects shown] at apart
      cases apart

/-- A command that is no correction on the qubit is not shown. -/
theorem filterMap_append_cons
    (watches : Watches qubit view)
    (before : List (Command R))
    {command : Command R}
    (apart : StandardForm.corrects qubit command = false)
    (rest : List (Command R)) :
    (before ++ command :: rest).filterMap view = (before ++ rest).filterMap view := by
  rw [List.filterMap_append, List.filterMap_append,
    List.filterMap_cons_none (watches.eq_none_of_not_corrects apart)]

/-- Commands that act on other qubits are not shown. -/
theorem filterMap_eq_nil
    (watches : Watches qubit view)
    {commands : List (Command R)}
    (apart : ∀ command ∈ commands, qubit ∉ command.targets) :
    commands.filterMap view = [] := by
  rw [List.filterMap_eq_nil_iff]
  intro command member
  cases shown : view command with
  | none => rfl
  | some list =>
      have target := apart command member
      rw [targets_of_corrects (watches.corrects shown)] at target
      exact absurd (List.mem_singleton_self qubit) target

/-- The corrections of another qubit are not shown, so that it does not matter whether
they are still pending. -/
theorem filterMap_remaining
    (watches : Watches qubit view)
    {other : Qubit}
    (different : other ≠ qubit)
    (pending : List (Command R)) :
    (pending.filter fun correction => !StandardForm.corrects other correction).filterMap
        view =
      pending.filterMap view := by
  rw [List.filterMap_filter]
  refine List.filterMap_congr fun command _ => ?_
  cases shown : view command with
  | none => exact ite_self none
  | some list =>
      have notOther : StandardForm.corrects other command = false := by
        by_contra both
        rw [Bool.not_eq_false] at both
        exact different (eq_of_corrects both (watches.corrects shown))
      rw [notOther]
      rfl

/-- A view of the effective corrections shows the lists that do not cancel. -/
theorem filterMap_filter_isEffective
    (watches : Watches qubit view)
    (commands : List (Command R)) :
    (commands.filter isEffective).filterMap view =
      (commands.filterMap view).filter fun list => !list.cancels := by
  rw [List.filterMap_filter, List.filter_filterMap]
  refine List.filterMap_congr fun command _ => ?_
  cases shown : view command with
  | none => exact ite_self none
  | some list =>
      rw [isEffective, watches.signals_eq shown]
      rfl

/-- The corrections on a qubit that is not measured stay, in their order, unless their
signals cancel. -/
theorem filterMap_settleFrom
    (watches : Watches qubit view)
    {commands : List (Command R)}
    (unmeasured : qubit ∉ measuredBy commands)
    (pending : List (Command R)) :
    (settleFrom pending commands).filterMap view =
      ((pending.reverse ++ commands).filterMap view).filter fun list => !list.cancels := by
  induction commands generalizing pending with
  | nil =>
      rw [List.append_nil, settleFrom, ← List.filter_reverse,
        watches.filterMap_filter_isEffective]
  | cons command rest inductionHypothesis =>
      rw [measuredBy_cons, List.mem_append, not_or] at unmeasured
      rcases command.isCorrection_or with
        correction | ⟨first, second, rfl⟩ | ⟨other, angle, s, t, rfl⟩
      · rw [settleFrom_correction pending correction,
          inductionHypothesis unmeasured.2, List.reverse_cons, List.append_assoc,
          List.singleton_append]
      · rw [settleFrom, List.filterMap_cons_none (watches.eq_none_of_not_corrects rfl),
          inductionHypothesis unmeasured.2, watches.filterMap_append_cons _ rfl]
      · have different : other ≠ qubit := by
          rintro rfl
          exact unmeasured.1 (by simp [measured?])
        rw [settleFrom_measure,
          List.filterMap_cons_none (watches.eq_none_of_not_corrects rfl),
          inductionHypothesis unmeasured.2, watches.filterMap_append_cons _ rfl,
          List.filterMap_append, List.filterMap_append, List.filterMap_reverse,
          watches.filterMap_remaining different, List.filterMap_reverse]

/-- In the standard form a qubit that is not measured keeps the corrections that are
there once the entanglements are taken out, unless their signals cancel. -/
theorem filterMap_ofCommands
    (watches : Watches qubit view)
    {commands : List (Command R)}
    (unmeasured : qubit ∉ measuredBy commands) :
    (ofCommands commands).filterMap view =
      ((separate commands).others.filterMap view).filter fun list => !list.cancels := by
  have hidden : (separate commands).entanglements.filterMap view = [] := by
    rw [entanglements_separate, List.filterMap_eq_nil_iff]
    intro command member
    cases command with
    | entangle first second => exact watches.eq_none_of_not_corrects rfl
    | measure _ _ _ _ => cases (List.mem_filter.1 member).2
    | correctX _ _ => cases (List.mem_filter.1 member).2
    | correctZ _ _ => cases (List.mem_filter.1 member).2
  rw [← (measuredBy_separate commands).2] at unmeasured
  unfold ofCommands settle
  rw [List.filterMap_append, hidden, List.nil_append,
    watches.filterMap_settleFrom unmeasured, List.reverse_nil, List.nil_append]

end Watches

theorem measure_mem_others
    {commands : List (Command R)}
    {qubit : Qubit}
    {angle : R}
    {s t : Signals}
    (member : .measure qubit angle s t ∈ commands) :
    .measure qubit angle s t ∈ (separate commands).others := by
  let view (command : Command R) : Option (Command R) :=
    if command.isMeasure then some command else none
  have shown : .measure qubit angle s t ∈ commands.filterMap view :=
    List.mem_filterMap.2 ⟨_, member, rfl⟩
  rw [← filterMap_separate view (fun _ _ => rfl) (fun _ _ => rfl)] at shown
  obtain ⟨command, inside, same⟩ := List.mem_filterMap.1 shown
  rw [Option.some.inj (Option.ite_none_right_eq_some.1 same).2] at inside
  exact inside

/-- A measurement takes over the signals of the pending corrections of its qubit and of
those before it. -/
theorem exists_measure_mem_settleFrom
    {width : Nat}
    {measured : List Qubit}
    {commands : List (Command R)}
    (legal : AllLegal width measured commands)
    {qubit : Qubit}
    {angle : R}
    {s t : Signals}
    (member : .measure qubit angle s t ∈ commands)
    (pending : List (Command R)) :
    ∃ turning adding,
      .measure qubit angle turning adding ∈ settleFrom pending commands ∧
      Signals.SameParity turning
        ((flips qubit (pending ++ commands)).foldl Signals.merge s) ∧
      Signals.SameParity adding
        ((shifts qubit (pending ++ commands)).foldl Signals.merge t) := by
  -- No step before the measurement takes a correction of its qubit from `pending`, and
  -- none after it may act on the qubit.
  induction commands generalizing measured pending with
  | nil => cases member
  | cons command rest inductionHypothesis =>
      obtain ⟨_, legalRest⟩ := legal
      rcases command.isCorrection_or with
        correction | ⟨first, second, rfl⟩ | ⟨other, otherAngle, otherS, otherT, rfl⟩
      · have later : .measure qubit angle s t ∈ rest := by
          rcases List.mem_cons.1 member with rfl | later
          · cases correction
          · exact later
        obtain ⟨turning, adding, present, sameTurning, sameAdding⟩ :=
          inductionHypothesis legalRest later (command :: pending)
        have order : (command :: pending ++ rest).Perm (pending ++ command :: rest) :=
          List.perm_middle.symm
        refine ⟨turning, adding, ?_, ?_, ?_⟩
        · rw [settleFrom_correction pending correction]
          exact present
        · exact sameTurning.trans (Signals.sameParity_foldl_merge s (order.filterMap _))
        · exact sameAdding.trans (Signals.sameParity_foldl_merge t (order.filterMap _))
      · have later := (List.mem_cons.1 member).resolve_left nofun
        obtain ⟨turning, adding, present, sameTurning, sameAdding⟩ :=
          inductionHypothesis legalRest later pending
        refine ⟨turning, adding, List.mem_cons_of_mem _ present, ?_, ?_⟩
        · rw [flips, (watches_signalsX? qubit).filterMap_append_cons pending rfl]
          exact sameTurning
        · rw [shifts, (watches_signalsZ? qubit).filterMap_append_cons pending rfl]
          exact sameAdding
      · rw [settleFrom_measure]
        by_cases same : other = qubit
        · subst same
          have apart (command : Command R) (later : command ∈ rest) :
              other ∉ command.targets := fun target =>
            (legalRest.target later target).2 (by simp)
          have absorbed {view : Command R → Option Signals} (watches : Watches other view) :
              (pending ++ .measure other otherAngle otherS otherT :: rest).filterMap view =
                pending.filterMap view := by
            rw [watches.filterMap_append_cons pending rfl, List.filterMap_append,
              watches.filterMap_eq_nil apart, List.append_nil]
          rcases List.mem_cons.1 member with head | later
          · cases head
            refine ⟨_, _, List.mem_cons_self, ?_, ?_⟩
            · rw [flips, absorbed (watches_signalsX? other)]
              exact fun _ => rfl
            · rw [shifts, absorbed (watches_signalsZ? other)]
              exact fun _ => rfl
          · exact absurd (List.mem_singleton_self other) (apart _ later)
        · have later := (List.mem_cons.1 member).resolve_left fun head =>
            same (Command.measure.inj head).1.symm
          obtain ⟨turning, adding, present, sameTurning, sameAdding⟩ :=
            inductionHypothesis legalRest later
              (pending.filter fun correction => !corrects other correction)
          have kept {view : Command R → Option Signals} (watches : Watches qubit view) :
              (pending ++ .measure other otherAngle otherS otherT :: rest).filterMap view =
                ((pending.filter fun correction => !corrects other correction) ++
                  rest).filterMap view := by
            rw [watches.filterMap_append_cons pending rfl, List.filterMap_append,
              List.filterMap_append, watches.filterMap_remaining same]
          refine ⟨turning, adding, List.mem_cons_of_mem _ present, ?_, ?_⟩
          · rw [flips, kept (watches_signalsX? qubit)]
            exact sameTurning
          · rw [shifts, kept (watches_signalsZ? qubit)]
            exact sameAdding

end StandardForm

namespace Program

variable {R : Type}

/-- The signals of a standard form in terms of the original commands: every
measurement, and every correction that is left, collects the X and Z
corrections of its qubit and the X corrections that cross to it. -/
theorem standardize_collects_signals (program : Program R) :
    program.pattern.standardize = .ok program.standardForm.pattern ∧
    (∀ qubit angle s t, .measure qubit angle s t ∈ program.pattern.commands →
      ∃ turning adding,
        (∀ command, command ∈ program.standardForm.pattern.commands ∧
            command.measured? = some qubit ↔
          command = .measure qubit angle turning adding) ∧
        Signals.SameParity turning
          ((StandardForm.flips qubit program.pattern.commands).foldl Signals.merge s) ∧
        Signals.SameParity adding
          ((StandardForm.shifts qubit program.pattern.commands ++
            StandardForm.crossings qubit program.pattern.commands).foldl
              Signals.merge t)) ∧
    ∀ qubit ∈ program.pattern.outputs,
      Signals.SameParity
        ((StandardForm.flips qubit program.standardForm.pattern.commands).foldl
          Signals.merge [])
        ((StandardForm.flips qubit program.pattern.commands).foldl Signals.merge []) ∧
      Signals.SameParity
        ((StandardForm.shifts qubit program.standardForm.pattern.commands).foldl
          Signals.merge [])
        ((StandardForm.shifts qubit program.pattern.commands ++
          StandardForm.crossings qubit program.pattern.commands).foldl
            Signals.merge []) := by
  have legal := program.lawful.legal
  have different (first second : Qubit)
      (member : .entangle first second ∈ program.pattern.commands) : first ≠ second := by
    obtain ⟨index, there⟩ := List.mem_iff_getElem?.1 member
    exact (program.legal_getElem there).entangle_ne
  refine ⟨program.standardize_eq_ok, fun qubit angle s t member => ?_,
    fun qubit output => ?_⟩
  · obtain ⟨turning, adding, present, sameTurning, sameAdding⟩ :=
      StandardForm.exists_measure_mem_settleFrom (StandardForm.allLegal_separate legal).2
        (StandardForm.measure_mem_others member) []
    have listed : .measure qubit angle turning adding ∈
        program.standardForm.pattern.commands := List.mem_append_right _ present
    refine ⟨turning, adding, fun command => ⟨fun ⟨inside, measures⟩ => ?_, ?_⟩, ?_, ?_⟩
    · exact Command.eq_of_measured?_eq program.standardForm.lawful.nodup_measuredBy inside
        listed measures rfl
    · rintro rfl
      exact ⟨listed, rfl⟩
    · rwa [List.nil_append, StandardForm.flips_separate] at sameTurning
    · exact sameAdding.trans (Signals.sameParity_foldl_merge t
        (StandardForm.shifts_separate_perm qubit different))
  · have unmeasured := (Pattern.mem_outputs.1 output).2
    constructor
    · have kept : StandardForm.flips qubit program.standardForm.pattern.commands = _ :=
        (StandardForm.watches_signalsX? qubit).filterMap_ofCommands unmeasured
      rw [kept, ← StandardForm.flips_separate]
      exact Signals.sameParity_foldl_merge_filter [] _
    · have kept : StandardForm.shifts qubit program.standardForm.pattern.commands = _ :=
        (StandardForm.watches_signalsZ? qubit).filterMap_ofCommands unmeasured
      rw [kept]
      exact (Signals.sameParity_foldl_merge_filter [] _).trans
        (Signals.sameParity_foldl_merge [] (StandardForm.shifts_separate_perm qubit different))

/-- A program in which three entanglements with an output pass the same X correction. -/
def reentangled : Program Nat where
  pattern :=
    { preparations := [.ancillas [0, 1, 2]]
      commands :=
        [.entangle 0 1, .measure 0 5 [] [], .correctX 1 [0], .entangle 1 2,
          .entangle 2 1, .correctZ 2 [0], .entangle 1 2, .measure 1 7 [0] [0],
          .correctX 2 [1], .correctZ 2 [0, 1]] }
  width := 3
  accepted := by decide

theorem standardize_collects_reentangled :
    (∃ turning adding,
      .measure 1 7 turning adding ∈ reentangled.standardForm.pattern.commands ∧
      Signals.SameParity turning [] ∧ Signals.SameParity adding [0]) ∧
    StandardForm.crossings 2 reentangled.pattern.commands = [[0], [0], [0]] ∧
    Signals.SameParity
      ((StandardForm.shifts 2 reentangled.standardForm.pattern.commands).foldl
        Signals.merge [])
      [0, 1] := by
  obtain ⟨_, measurements, outputs⟩ := standardize_collects_signals reentangled
  obtain ⟨turning, adding, unique, sameTurning, sameAdding⟩ :=
    measurements 1 7 [0] [0] (by simp [reentangled])
  exact ⟨⟨turning, adding, ((unique _).2 rfl).1, sameTurning, sameAdding⟩, by decide,
    (outputs 2 (by decide)).2⟩

end Program

end MeasurementCalculus
