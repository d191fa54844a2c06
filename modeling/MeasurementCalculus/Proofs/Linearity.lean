import MeasurementCalculus.Proofs.Lowering
import MeasurementCalculus.Proofs.Real
import MeasurementCalculus.Template.Library

/-!
# Linear templates

A template is linear if its directives are sound one after another and none of
them mentions a wire that an earlier one consumed. Sound directives are
lowered to commands that act on different prepared qubits and read only
recorded outcomes. All that is left for the check to find are commands on
measured qubits, that is, consumed wires that are mentioned again.
-/

namespace MeasurementCalculus

namespace Command

variable {R : Type}

/-- A command on different qubits of the register that reads only outcomes of
measured qubits. Its targets may have been measured. -/
structure Grounded
    (width : Nat)
    (measured : List Qubit)
    (command : Command R) : Prop where
  /-- Every target is a qubit of the register. -/
  target_lt : ∀ target ∈ command.targets, target < width
  /-- The targets are different. -/
  targets_nodup : command.targets.Nodup
  /-- Every signal is measured. -/
  signal_mem : ∀ signal ∈ command.signals, signal ∈ measured

/-- A grounded command is legal if it acts on no measured qubit. -/
theorem legal_iff_grounded
    {width : Nat}
    {measured : List Qubit}
    {command : Command R} :
    command.Legal width measured ↔
      command.Grounded width measured ∧
        ∀ target ∈ command.targets, target ∉ measured := by
  constructor
  · intro legal
    exact ⟨⟨legal.target_lt, legal.targets_nodup, legal.signal_mem⟩,
      legal.target_notMem⟩
  · rintro ⟨grounded, fresh⟩
    exact ⟨grounded.target_lt, fresh, grounded.targets_nodup, grounded.signal_mem⟩

/-- Commands each of which is grounded when the earlier ones have been executed. -/
def AllGrounded
    (width : Nat) : List Qubit → List (Command R) → Prop
  | _, [] => True
  | measured, command :: rest =>
      command.Grounded width measured ∧
        AllGrounded width (command.measuredAfter measured) rest

/-- Commands none of which acts on a qubit that was measured before it. -/
def AllFresh : List Qubit → List (Command R) → Prop
  | _, [] => True
  | measured, command :: rest =>
      (∀ target ∈ command.targets, target ∉ measured) ∧
        AllFresh (command.measuredAfter measured) rest

/-- Grounded commands are legal if none of them acts on a measured qubit. -/
theorem AllGrounded.allLegal_iff
    {width : Nat}
    {measured : List Qubit}
    {commands : List (Command R)}
    (grounded : AllGrounded width measured commands) :
    AllLegal width measured commands ↔ AllFresh measured commands := by
  induction commands generalizing measured with
  | nil => exact Iff.rfl
  | cons command rest inductionHypothesis =>
      obtain ⟨here, later⟩ := grounded
      rw [allLegal_cons, legal_iff_grounded, inductionHypothesis later, AllFresh,
        and_iff_right here]

theorem allGrounded_append
    (width : Nat)
    (measured : List Qubit)
    (first second : List (Command R)) :
    AllGrounded width measured (first ++ second) ↔
      AllGrounded width measured first ∧
        AllGrounded width (measured ++ measuredBy first) second := by
  induction first generalizing measured with
  | nil => simp [AllGrounded]
  | cons command rest inductionHypothesis =>
      simp [AllGrounded, inductionHypothesis, measuredAfter, and_assoc]

theorem allFresh_append
    (measured : List Qubit)
    (first second : List (Command R)) :
    AllFresh measured (first ++ second) ↔
      AllFresh measured first ∧ AllFresh (measured ++ measuredBy first) second := by
  induction first generalizing measured with
  | nil => simp [AllFresh]
  | cons command rest inductionHypothesis =>
      simp [AllFresh, inductionHypothesis, measuredAfter, and_assoc]

end Command

namespace WellFormed

variable {R : Type}

/-- The only breaches of a grounded command are those at measured targets. -/
theorem condition_of_mem_commandViolations
    {prepared measuredSet : QubitSet}
    {width : Nat}
    {measured : List Qubit}
    {command : Command R}
    (preparedBelow : ∀ qubit, qubit ∈ prepared ↔ qubit < width)
    (sameMeasured : ∀ qubit, qubit ∈ measuredSet ↔ qubit ∈ measured)
    (grounded : command.Grounded width measured)
    {index : Nat}
    {violation : Violation R}
    (member : violation ∈ commandViolations prepared measuredSet index command) :
    violation.condition = .unmeasuredTarget := by
  rw [commandViolations,
    (pairViolations_eq_nil_iff index command).2 grounded.targets_nodup,
    List.nil_append, List.mem_append, List.mem_flatMap, List.mem_flatMap] at member
  rcases member with ⟨target, targeted, inside⟩ | ⟨signal, read, inside⟩
  · have present : prepared.contains target = true :=
      Std.TreeSet.contains_iff_mem.2
        ((preparedBelow target).2 (grounded.target_lt target targeted))
    rw [targetViolations, if_pos present, List.nil_append] at inside
    split at inside
    · rw [List.mem_singleton.1 inside]
      rfl
    · cases inside
  · have recorded : signal ∈ measuredSet :=
      (sameMeasured signal).2 (grounded.signal_mem signal read)
    rw [(signalViolations_eq_nil_iff measuredSet index command signal).2 recorded]
      at inside
    cases inside

/-- The walk over grounded commands finds only commands on measured qubits. -/
theorem condition_of_mem_walk
    {prepared measuredSet : QubitSet}
    {width : Nat}
    {measured : List Qubit}
    {commands : List (Command R)}
    (preparedBelow : ∀ qubit, qubit ∈ prepared ↔ qubit < width)
    (sameMeasured : ∀ qubit, qubit ∈ measuredSet ↔ qubit ∈ measured)
    (grounded : Command.AllGrounded width measured commands)
    {index : Nat}
    {violation : Violation R}
    (member : violation ∈ walk prepared measuredSet index commands) :
    violation.condition = .unmeasuredTarget := by
  induction commands generalizing measuredSet measured index with
  | nil => cases member
  | cons command rest inductionHypothesis =>
      rw [walk_cons, List.mem_append] at member
      rcases member with here | later
      · exact condition_of_mem_commandViolations preparedBelow sameMeasured
          grounded.1 here
      · exact inductionHypothesis (mem_recordMeasured sameMeasured command)
          grounded.2 later

end WellFormed

/-! ## The commands of sound directives -/

namespace Wire

theorem Defined.qubit_lt
    {arity allocated : Nat}
    {wire : Wire}
    (defined : wire.Defined arity allocated) :
    wire.qubit arity < arity + allocated := by
  cases wire with
  | input index =>
      have below : index < arity := defined
      change index < arity + allocated
      omega
  | ancilla index => exact Nat.add_lt_add_left defined arity

/-- Existing wires are told apart by their qubits. -/
theorem qubit_mem_map_iff
    {arity : Nat}
    {wire : Wire}
    {wires : List Wire}
    (here : wire.Exists arity)
    (there : ∀ other ∈ wires, other.Exists arity) :
    wire.qubit arity ∈ wires.map (qubit arity) ↔ wire ∈ wires := by
  refine ⟨fun member => ?_, List.mem_map_of_mem⟩
  obtain ⟨other, inside, same⟩ := List.mem_map.1 member
  exact qubit_injective (there other inside) here same ▸ inside

end Wire

namespace Directive

variable {R : Type}

/-- The wires that a directive uses up. -/
def consumed : Directive R → List Wire
  | .allocate _ => []
  | .cz _ _ => []
  | .j _ source _ => [source]
  | .measure _ wire => [wire]

/-- The second directive mentions no wire that the first one consumes. -/
def Spares (earlier later : Directive R) : Prop :=
  ∀ wire ∈ later.wires, wire ∉ earlier.consumed

theorem consumed_subset_wires (directive : Directive R) :
    directive.consumed ⊆ directive.wires := by
  cases directive with
  | allocate count => exact List.nil_subset _
  | cz first second => exact List.nil_subset _
  | j angle source target => simp [consumed, wires]
  | measure angle wire => exact List.Subset.refl _

/-- The wires of a sound directive have different qubits. -/
theorem Sound.qubits_nodup
    {arity allocated : Nat}
    {directive : Directive R}
    (sound : directive.Sound arity allocated) :
    (directive.wires.map (Wire.qubit arity)).Nodup :=
  sound.wires_nodup.map_on fun wire member other otherMember same =>
    Wire.qubit_injective (sound.defined wire member).toExists
      (sound.defined other otherMember).toExists same

section Commands

variable [Neg R] {arity allocated : Nat}

/-- A directive measures the qubits of the wires that it consumes. -/
theorem measuredBy_commands
    (arity : Nat)
    (directive : Directive R) :
    Command.measuredBy (directive.commands arity) =
      directive.consumed.map (Wire.qubit arity) := by
  cases directive with
  | allocate count => rfl
  | cz first second => rfl
  | j angle source target => rfl
  | measure angle wire => rfl

theorem measuredBy_flatMap_commands
    (arity : Nat)
    (directives : List (Directive R)) :
    Command.measuredBy (directives.flatMap (commands arity)) =
      (directives.flatMap consumed).map (Wire.qubit arity) := by
  rw [Command.measuredBy, List.filterMap_flatMap, List.map_flatMap]
  exact congrArg (directives.flatMap ·) (funext (measuredBy_commands arity))

/-- The commands of a sound directive are grounded. -/
theorem Sound.allGrounded_commands
    {directive : Directive R}
    (sound : directive.Sound arity allocated)
    {width : Nat}
    (fits : arity + allocated ≤ width)
    (measured : List Qubit) :
    Command.AllGrounded width measured (directive.commands arity) := by
  have below : ∀ qubit ∈ directive.wires.map (Wire.qubit arity), qubit < width :=
    List.forall_mem_map.2 fun wire member =>
      Nat.lt_of_lt_of_le (sound.defined wire member).qubit_lt fits
  have nodup := sound.qubits_nodup
  cases directive with
  | allocate count => exact trivial
  | cz first second => exact ⟨⟨below, nodup, by simp⟩, trivial⟩
  | j angle source target =>
      -- The correction reads the outcome that the directive itself records.
      refine ⟨⟨below, nodup, by simp⟩, ⟨?_, by simp, by simp⟩, ⟨?_, by simp, ?_⟩, trivial⟩
      · simpa using below _ List.mem_cons_self
      · simpa using below _ (List.mem_cons_of_mem _ List.mem_cons_self)
      · simp [Command.measuredAfter, Command.measured?]
  | measure angle wire => exact ⟨⟨below, nodup, by simp⟩, trivial⟩

/-- The commands of a sound directive act on no measured qubit if no wire of the
directive is measured before. -/
theorem Sound.allFresh_commands_iff
    {directive : Directive R}
    (sound : directive.Sound arity allocated)
    (measured : List Qubit) :
    Command.AllFresh measured (directive.commands arity) ↔
      ∀ wire ∈ directive.wires, wire.qubit arity ∉ measured := by
  cases directive with
  | allocate count => simp [commands, wires, Command.AllFresh]
  | cz first second => simp [commands, wires, Command.AllFresh]
  | j angle source target =>
      have apart : ¬target.qubit arity = source.qubit arity := fun same =>
        (List.nodup_cons.1 sound.qubits_nodup).1 (by simp [same])
      simp [commands, wires, Command.AllFresh, Command.measuredAfter,
        Command.measured?, apart]
  | measure angle wire => simp [commands, wires, Command.AllFresh]

/-- The commands of directives that are sound one after another are grounded. -/
theorem AllSound.allGrounded_flatMap_commands
    {directives : List (Directive R)}
    (sound : AllSound arity allocated directives)
    {width : Nat}
    (fits : arity + allocated + (directives.map Directive.allocated).sum ≤ width)
    (measured : List Qubit) :
    Command.AllGrounded width measured (directives.flatMap (commands arity)) := by
  induction directives generalizing allocated measured with
  | nil => trivial
  | cons directive rest inductionHypothesis =>
      obtain ⟨soundHere, soundLater⟩ := sound
      rw [List.map_cons, List.sum_cons] at fits
      rw [List.flatMap_cons, Command.allGrounded_append]
      exact ⟨soundHere.allGrounded_commands (by omega) measured,
        inductionHypothesis soundLater (by omega) _⟩

/-- The commands of directives that are sound one after another act on no measured
qubit if no directive mentions a wire that is measured at the start or consumed
by an earlier directive. -/
theorem AllSound.allFresh_flatMap_commands_iff
    {directives : List (Directive R)}
    (sound : AllSound arity allocated directives)
    (measured : List Qubit) :
    Command.AllFresh measured (directives.flatMap (commands arity)) ↔
      (∀ directive ∈ directives, ∀ wire ∈ directive.wires,
        wire.qubit arity ∉ measured) ∧
      directives.Pairwise Spares := by
  induction directives generalizing allocated measured with
  | nil => simp [Command.AllFresh]
  | cons directive rest inductionHypothesis =>
      have spared : (∀ later ∈ rest, ∀ wire ∈ later.wires,
            wire.qubit arity ∉ directive.consumed.map (Wire.qubit arity)) ↔
          ∀ later ∈ rest, directive.Spares later := by
        have exist := sound.exists_of_mem
        refine forall₂_congr fun later member => forall₂_congr fun wire mentioned => ?_
        rw [Wire.qubit_mem_map_iff]
        · exact exist later (List.mem_cons_of_mem _ member) wire mentioned
        · intro other used
          exact exist directive List.mem_cons_self other
            (directive.consumed_subset_wires used)
      obtain ⟨soundHere, soundLater⟩ := sound
      rw [List.flatMap_cons, Command.allFresh_append, soundHere.allFresh_commands_iff,
        inductionHypothesis soundLater, measuredBy_commands, List.pairwise_cons,
        ← spared]
      simp only [List.mem_append, not_or, List.forall_mem_cons, forall_and]
      tauto

end Commands

end Directive

/-! ## The qubits of the finished draft -/

namespace Qubit

theorem ascending_range (count : Nat) :
    ascending (List.range count) = List.range count :=
  ascending_eq_range fun _ => List.mem_range

end Qubit

namespace Draft

variable {R : Type}

theorem range_append_range' (count more : Nat) :
    List.range count ++ List.range' count more = List.range (count + more) := by
  have joined := List.range'_append_1 (s := 0) (m := count) (n := more)
  rwa [Nat.zero_add, ← List.range_eq_range', ← List.range_eq_range'] at joined

/-- The qubits that a draft declares are numbered in the order of declaration, and
the inputs come first. -/
structure Numbered
    (arity : Nat)
    (draft : Draft R) : Prop where
  /-- Every number below the count of the qubits is declared in its turn. -/
  declared_eq : draft.toPattern.declared.map Prod.fst =
    List.range (arity + draft.allocated)
  /-- The inputs have the first numbers. -/
  inputs_eq : ((draft.preparations.filter Preparation.isInput).flatMap
    fun preparation => preparation.declared.map Prod.fst) = List.range arity

theorem numbered_ofInputs (inputs : List (Ket R)) :
    (ofInputs inputs).Numbered inputs.length := by
  have allInputs : (ofInputs inputs).preparations.filter Preparation.isInput =
      (ofInputs inputs).preparations := by
    refine List.filter_eq_self.2 fun preparation member => ?_
    obtain ⟨entry, _, rfl⟩ := List.mem_map.1 member
    rfl
  have numbers : ((ofInputs inputs).preparations.flatMap fun preparation =>
      preparation.declared.map Prod.fst) = List.range inputs.length := by
    rw [ofInputs, List.flatMap_map]
    change (inputs.zipIdx.flatMap fun entry => [entry.2]) = _
    rw [← List.map_eq_flatMap, List.zipIdx_map_snd, List.range_eq_range']
  constructor
  · exact List.map_flatMap.trans numbers
  · rw [allInputs, numbers]

/-- Directives declare the next qubits, and none of them is an input. -/
theorem Numbered.extend
    [Neg R]
    {arity : Nat}
    {draft : Draft R}
    (numbered : draft.Numbered arity)
    (directive : Directive R) :
    (draft.extend arity directive).Numbered arity := by
  have noInputs : (directive.preparations (arity + draft.allocated)).filter
      Preparation.isInput = [] := by
    cases directive with
    | allocate count => rfl
    | cz first second => rfl
    | j angle source target => rfl
    | measure angle wire => rfl
  have next : ((directive.preparations (arity + draft.allocated)).flatMap
        Preparation.declared).map Prod.fst =
      List.range' (arity + draft.allocated) directive.allocated := by
    cases directive with
    | allocate count =>
        simp [Directive.preparations, Directive.allocated, Function.comp_def]
    | cz first second => rfl
    | j angle source target => rfl
    | measure angle wire => rfl
  constructor
  · change ((draft.preparations ++ _).flatMap Preparation.declared).map Prod.fst =
      List.range (arity + (draft.allocated + directive.allocated))
    rw [List.flatMap_append, List.map_append, next]
    have earlier := numbered.declared_eq
    change (draft.preparations.flatMap Preparation.declared).map Prod.fst = _
      at earlier
    rw [earlier, ← Nat.add_assoc, range_append_range']
  · change ((draft.preparations ++ _).filter Preparation.isInput).flatMap _ = _
    rw [List.filter_append, noInputs, List.append_nil]
    exact numbered.inputs_eq

end Draft

namespace Template

variable {R : Type}

/-! ## Linearity -/

/-- The number of ancillas that the directives before a position allocate. -/
def allocatedBefore
    (template : Template R)
    (index : Nat) : Nat :=
  ((template.directives.take index).map Directive.allocated).sum

/-- The directive at a position, if there is one, is sound when the earlier ones have
allocated their ancillas. -/
def SoundAt
    (template : Template R)
    (index : Nat) : Prop :=
  ∀ directive, template.directives[index]? = some directive →
    directive.Sound template.inputs.length (template.allocatedBefore index)

/-- A template whose directives are sound one after another and mention no wire that
an earlier one consumes. -/
structure Linear (template : Template R) : Prop where
  /-- Every directive is sound at its position. -/
  sound : ∀ index, template.SoundAt index
  /-- No consumed wire is mentioned again. -/
  spares : template.directives.Pairwise Directive.Spares

/-- The wires that the directives consume, in their order. -/
def consumed (template : Template R) : List Wire :=
  template.directives.flatMap Directive.consumed

/-- The inputs and then the ancillas of a template. -/
def wires (template : Template R) : List Wire :=
  (List.range template.inputs.length).map .input ++
    (List.range template.ancillaCount).map .ancilla

/-- The wires that no directive consumes. -/
def unconsumed (template : Template R) : List Wire :=
  template.wires.filter (· ∉ template.consumed)

theorem allSound_iff_soundAt (template : Template R) :
    Directive.AllSound template.inputs.length 0 template.directives ↔
      ∀ index, template.SoundAt index := by
  rw [Directive.allSound_iff]
  simp only [Nat.zero_add]
  rfl

theorem ancillaCount_eq_sum (template : Template R) :
    template.ancillaCount = (template.directives.map Directive.allocated).sum := by
  rw [ancillaCount, List.sum_eq_foldl, List.foldl_map]

theorem map_qubit_wires (template : Template R) :
    template.wires.map (Wire.qubit template.inputs.length) =
      List.range (template.inputs.length + template.ancillaCount) := by
  rw [wires, List.map_append, List.map_map, List.map_map, List.range_add]
  congr 1
  exact List.map_id _

theorem exists_of_mem_wires
    {template : Template R}
    {wire : Wire}
    (member : wire ∈ template.wires) :
    wire.Exists template.inputs.length := by
  rcases List.mem_append.1 member with listed | listed
  · obtain ⟨index, inside, rfl⟩ := List.mem_map.1 listed
    exact List.mem_range.1 inside
  · obtain ⟨index, _, rfl⟩ := List.mem_map.1 listed
    exact trivial

section Finished

variable [Neg R] (template : Template R)

theorem numbered_finishedDraft :
    template.finishedDraft.Numbered template.inputs.length :=
  Draft.foldl_extend_induction (fun _ directive numbered => numbered.extend directive)
    (Draft.numbered_ofInputs template.inputs) template.directives

theorem declared_finishedDraft :
    template.finishedDraft.toPattern.declared.map Prod.fst =
      List.range (template.inputs.length + template.ancillaCount) := by
  rw [template.numbered_finishedDraft.declared_eq, allocated_finishedDraft]

theorem prepared_finishedDraft :
    template.finishedDraft.toPattern.prepared =
      List.range (template.inputs.length + template.ancillaCount) := by
  rw [Pattern.prepared, declared_finishedDraft, Qubit.ascending_range]

theorem inputs_finishedDraft :
    template.finishedDraft.toPattern.inputs = List.range template.inputs.length := by
  rw [Pattern.inputs, Draft.toPattern, template.numbered_finishedDraft.inputs_eq,
    Qubit.ascending_range]

theorem measured_finishedDraft :
    template.finishedDraft.toPattern.measured =
      template.consumed.map (Wire.qubit template.inputs.length) := by
  change Command.measuredBy template.finishedDraft.commands = _
  rw [commands_finishedDraft, Directive.measuredBy_flatMap_commands]
  rfl

variable {template}
variable (sound : ∀ index, template.SoundAt index)

include sound

/-- The outputs are the wires that are never consumed. -/
theorem outputs_finishedDraft :
    template.finishedDraft.toPattern.outputs =
      template.unconsumed.map (Wire.qubit template.inputs.length) := by
  have exist : ∀ wire ∈ template.consumed, wire.Exists template.inputs.length := by
    intro wire member
    obtain ⟨directive, listed, used⟩ := List.mem_flatMap.1 member
    exact (template.allSound_iff_soundAt.2 sound).exists_of_mem directive listed wire
      (directive.consumed_subset_wires used)
  unfold Pattern.outputs
  rw [prepared_finishedDraft, measured_finishedDraft, ← map_qubit_wires,
    List.filter_map, unconsumed]
  refine congrArg _ (List.filter_congr fun wire member => ?_)
  rw [Function.comp_apply, Bool.eq_iff_iff, decide_eq_true_iff,
    ← Wire.qubit_mem_map_iff (exists_of_mem_wires member) exist]
  simp

theorem allGrounded_finishedDraft :
    Command.AllGrounded (template.inputs.length + template.ancillaCount) []
      template.finishedDraft.toPattern.commands := by
  change Command.AllGrounded _ _ template.finishedDraft.commands
  rw [commands_finishedDraft, ancillaCount_eq_sum]
  exact (template.allSound_iff_soundAt.2 sound).allGrounded_flatMap_commands
    (Nat.le_of_eq (by rw [Nat.add_zero])) []

/-- The pattern of sound directives can only breach the condition that commands act
on unmeasured qubits. -/
theorem condition_of_mem_violations
    {violation : Violation R}
    (member : violation ∈ template.finishedDraft.toPattern.violations) :
    violation.condition = .unmeasuredTarget := by
  have noneRepeated : WellFormed.repeated ∅
      (template.finishedDraft.toPattern.declared.map Prod.fst) = [] := by
    rw [WellFormed.repeated_eq_nil_iff, declared_finishedDraft]
    exact ⟨List.nodup_range, by simp⟩
  have noGap : (WellFormed.gapViolations
      template.finishedDraft.toPattern.prepared : List (Violation R)) = [] := by
    rw [Pattern.gapViolations_eq_nil_iff, prepared_finishedDraft, List.length_range]
  rw [Pattern.violations, noneRepeated, noGap, List.map_nil, List.nil_append,
    List.append_nil] at member
  refine WellFormed.condition_of_mem_walk (fun qubit => ?_) (fun qubit => ?_)
    (allGrounded_finishedDraft sound) member
  · rw [Std.TreeSet.mem_ofList, List.contains_iff_mem, prepared_finishedDraft,
      List.mem_range]
  · simp

/-- The pattern of sound directives is lawful if no consumed wire is mentioned
again. -/
theorem lawful_finishedDraft_iff :
    template.finishedDraft.toPattern.Lawful
        (template.inputs.length + template.ancillaCount) ↔
      template.directives.Pairwise Directive.Spares := by
  have legalIff := (allGrounded_finishedDraft sound).allLegal_iff
  have freshIff :=
    (template.allSound_iff_soundAt.2 sound).allFresh_flatMap_commands_iff []
  change _ ↔ Command.AllFresh _ template.finishedDraft.commands at legalIff
  rw [commands_finishedDraft, freshIff, and_iff_right (by simp)] at legalIff
  rw [← legalIff]
  refine ⟨Pattern.Lawful.legal, fun legal => ⟨?_, prepared_finishedDraft _, legal⟩⟩
  rw [declared_finishedDraft]
  exact List.nodup_range

end Finished

/-- The directives of a list that is sound up to a position are sound there. -/
theorem soundAt_of_lt
    {template : Template R}
    {before after : List (Directive R)}
    (split : template.directives = before ++ after)
    (sound : Directive.AllSound template.inputs.length 0 before)
    {index : Nat}
    (earlier : index < before.length) :
    template.SoundAt index := by
  intro directive there
  rw [split, List.getElem?_append_left earlier] at there
  have here := Directive.allSound_iff.1 sound index directive there
  rwa [Nat.zero_add, ← List.take_append_of_le_length (Nat.le_of_lt earlier), ← split]
    at here

theorem allocatedBefore_length
    {template : Template R}
    {before after : List (Directive R)}
    (split : template.directives = before ++ after) :
    template.allocatedBefore before.length =
      (before.map Directive.allocated).sum := by
  rw [allocatedBefore, split, List.take_left]

variable [Scalar R] {template : Template R}

/-- A template compiles exactly if it is linear, and then to the pattern of its
finished draft. -/
theorem compile_eq_ok_iff
    {pattern : Pattern R} :
    template.compile = .ok pattern ↔
      template.Linear ∧ template.finishedDraft.toPattern = pattern := by
  rcases template.compile_eq with ⟨sound, all⟩ |
    ⟨before, directive, after, fault, split, _, faulty, failed⟩
  · have soundAt := template.allSound_iff_soundAt.1 sound
    rw [all]
    constructor
    · intro compiled
      split at compiled
      · cases compiled
      · next width accepted =>
          have lawful := (Pattern.check_eq_ok_iff _ width).1 accepted
          have sameWidth := congrArg List.length lawful.prepared_eq
          rw [prepared_finishedDraft, List.length_range, List.length_range] at sameWidth
          rw [← sameWidth] at lawful
          exact ⟨⟨soundAt, (lawful_finishedDraft_iff soundAt).1 lawful⟩,
            Except.ok.inj compiled⟩
    · rintro ⟨linear, rfl⟩
      rw [(Pattern.check_eq_ok_iff _ _).2
        ((lawful_finishedDraft_iff soundAt).2 linear.spares)]
  · rw [failed]
    have there : template.directives[before.length]? = some directive := by
      simp [split]
    rw [← allocatedBefore_length split] at faulty
    constructor
    · intro compiled
      cases compiled
    · rintro ⟨linear, _⟩
      exact absurd (linear.sound before.length directive there) faulty.not_sound

/-- What is reported of a template that does not compile: a fault of the first
directive that is not sound or, if there is none, commands on measured qubits. -/
theorem compile_eq_error
    {error : Error R}
    (rejected : template.compile = .error error) :
    (∃ index directive fault,
      error = .template template.name (.directive index fault) ∧
      template.directives[index]? = some directive ∧
      (∀ earlier < index, template.SoundAt earlier) ∧
      ¬template.SoundAt index ∧
      directive.HasFault template.inputs.length (template.allocatedBefore index)
        fault) ∨
    ∃ violations,
      error = .template template.name (.illFormed violations) ∧
      (∀ index, template.SoundAt index) ∧
      violations ≠ [] ∧
      ∀ violation ∈ violations, violation.condition = .unmeasuredTarget := by
  rcases template.compile_eq with ⟨sound, all⟩ |
    ⟨before, directive, after, fault, split, sound, faulty, failed⟩
  · have soundAt := template.allSound_iff_soundAt.1 sound
    rw [all] at rejected
    split at rejected
    · next breaches found =>
        obtain ⟨rfl, some⟩ := (Pattern.check_eq_error_iff _ _).1 found
        exact .inr ⟨_, (Except.error.inj rejected).symm, soundAt, some,
          fun violation member => condition_of_mem_violations soundAt member⟩
    · cases rejected
  · rw [failed] at rejected
    have there : template.directives[before.length]? = some directive := by
      simp [split]
    rw [← allocatedBefore_length split] at faulty
    exact .inl ⟨before.length, directive, fault, (Except.error.inj rejected).symm,
      there, fun _ earlier => soundAt_of_lt split sound earlier,
      fun soundHere => faulty.not_sound (soundHere directive there), faulty⟩

/-- Compilation accepts exactly the linear templates. Any other template is
rejected with a fault of the first directive that is not sound, or else with
commands on measured qubits and no other breach. -/
theorem compile_accepts_linear (template : Template R) :
    ((∃ pattern, template.compile = .ok pattern) ↔ template.Linear) ∧
    (∀ pattern, template.compile = .ok pattern →
      pattern.check = .ok (template.inputs.length + template.ancillaCount) ∧
      pattern.inputs = List.range template.inputs.length ∧
      pattern.measured =
        template.consumed.map (Wire.qubit template.inputs.length) ∧
      pattern.outputs =
        template.unconsumed.map (Wire.qubit template.inputs.length)) ∧
    ∀ error, template.compile = .error error →
      (∃ index directive fault,
        error = .template template.name (.directive index fault) ∧
        template.directives[index]? = some directive ∧
        (∀ earlier < index, template.SoundAt earlier) ∧
        ¬template.SoundAt index ∧
        directive.HasFault template.inputs.length (template.allocatedBefore index)
          fault) ∨
      ∃ violations,
        error = .template template.name (.illFormed violations) ∧
        (∀ index, template.SoundAt index) ∧
        violations ≠ [] ∧
        ∀ violation ∈ violations, violation.condition = .unmeasuredTarget := by
  refine ⟨?_, ?_, fun error => compile_eq_error⟩
  · constructor
    · rintro ⟨pattern, compiled⟩
      exact (compile_eq_ok_iff.1 compiled).1
    · intro linear
      exact ⟨_, compile_eq_ok_iff.2 ⟨linear, rfl⟩⟩
  · intro pattern compiled
    obtain ⟨linear, rfl⟩ := compile_eq_ok_iff.1 compiled
    refine ⟨?_, template.inputs_finishedDraft, template.measured_finishedDraft,
      outputs_finishedDraft linear.sound⟩
    exact (Pattern.check_eq_ok_iff _ _).2
      ((lawful_finishedDraft_iff linear.sound).2 linear.spares)

/-- A template that reads its input out twice. -/
noncomputable def reread : Template ℝ where
  name := "reread"
  inputs := [.plus]
  directives := [.measureX (.input 0), .measureX (.input 0)]

/-- The two rotations of the phase gate consume its input and its first ancilla, and
the second ancilla remains. A second readout of one input is rejected although each
readout is sound. -/
theorem compile_accepts_phase_not_reread :
    (∃ pattern : Pattern ℝ,
      (phase Scalar.pi .plus).compile = .ok pattern ∧
      pattern.check = .ok 3 ∧ pattern.inputs = [0] ∧ pattern.measured = [0, 1] ∧
      pattern.outputs = [2]) ∧
    ∃ violations,
      reread.compile = .error (.template "reread" (.illFormed violations)) ∧
      violations ≠ [] ∧
      ∀ violation ∈ violations, violation.condition = .unmeasuredTarget := by
  constructor
  · obtain ⟨accepted, qubits, _⟩ :=
      compile_accepts_linear (phase (Scalar.pi : ℝ) .plus)
    have linear : (phase (Scalar.pi : ℝ) .plus).Linear := by
      refine ⟨(allSound_iff_soundAt _).1 ⟨?_, ?_, ?_, trivial⟩, ?_⟩
      · exact ⟨by simp, by simp [Directive.wires], by simp [Directive.wires]⟩
      · refine ⟨by simp, ?_, by simp [Directive.wires]⟩
        simp [Directive.wires, Wire.Defined, phase, Directive.allocated]
      · refine ⟨by simp, ?_, by simp [Directive.wires]⟩
        simp [Directive.wires, Wire.Defined, Directive.allocated]
      · simp [phase, Directive.Spares, Directive.wires, Directive.consumed]
    obtain ⟨pattern, compiled⟩ := accepted.2 linear
    exact ⟨pattern, compiled, qubits pattern compiled⟩
  · obtain ⟨accepted, _, reported⟩ := compile_accepts_linear reread
    have soundAt : ∀ index, reread.SoundAt index := by
      refine (allSound_iff_soundAt _).1 ⟨?_, ?_, trivial⟩
      all_goals
        refine ⟨by simp [Directive.measureX], ?_, ?_⟩
        · simp [Directive.measureX, Directive.wires, Wire.Defined, reread]
        · simp [Directive.measureX, Directive.wires]
    have notLinear : ¬reread.Linear := by
      rintro ⟨_, spares⟩
      simp [reread, Directive.measureX, Directive.Spares, Directive.wires,
        Directive.consumed] at spares
    cases compiled : reread.compile with
    | ok pattern => exact absurd (accepted.1 ⟨pattern, compiled⟩) notLinear
    | error error =>
        rcases reported error compiled with
          ⟨index, _, _, _, _, _, unsound, _⟩ | ⟨violations, rfl, _, some, all⟩
        · exact absurd (soundAt index) unsound
        · exact ⟨violations, rfl, some, all⟩

end Template

end MeasurementCalculus
