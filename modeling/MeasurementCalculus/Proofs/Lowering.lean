import MeasurementCalculus.Proofs.Safety
import MeasurementCalculus.Template.Draft
import Mathlib.Algebra.GroupWithZero.Nat

/-!
# What a template is lowered to

A directive is sound if it allocates at least one ancilla or mentions
different wires that are inputs or already allocated. What it adds to a draft
depends on nothing in the draft but the number of the next ancilla. So a
template with sound directives is lowered to the commands of its directives,
one after another.
-/

namespace MeasurementCalculus

namespace Wire

/-- The qubit of a wire in a template with `arity` inputs. -/
def qubit (arity : Nat) : Wire → Qubit
  | .input index => index
  | .ancilla index => arity + index

/-- A wire that is an input of the template or an ancilla. -/
def Exists (arity : Nat) : Wire → Prop
  | .input index => index < arity
  | .ancilla _ => True

/-- A wire that is an input of the template or one of the ancillas allocated so
far. -/
def Defined (arity allocated : Nat) : Wire → Prop
  | .input index => index < arity
  | .ancilla index => index < allocated

theorem Defined.toExists
    {arity allocated : Nat}
    {wire : Wire}
    (defined : wire.Defined arity allocated) :
    wire.Exists arity := by
  cases wire with
  | input index => exact defined
  | ancilla index => exact trivial

/-- Different wires have different qubits. -/
theorem qubit_injective
    {arity : Nat}
    {first second : Wire}
    (firstExists : first.Exists arity)
    (secondExists : second.Exists arity)
    (same : first.qubit arity = second.qubit arity) :
    first = second := by
  cases first with
  | input index =>
      cases second with
      | input other => exact congrArg Wire.input same
      | ancilla other =>
          have below : index < arity := firstExists
          have above : index = arity + other := same
          omega
  | ancilla index =>
      cases second with
      | input other =>
          have below : other < arity := secondExists
          have above : arity + index = other := same
          omega
      | ancilla other => exact congrArg Wire.ancilla (Nat.add_left_cancel same)

end Wire

namespace Directive

variable {R : Type}

/-- The wires that a directive mentions. -/
def wires : Directive R → List Wire
  | .allocate _ => []
  | .cz first second => [first, second]
  | .j _ source target => [source, target]
  | .measure _ wire => [wire]

/-- The commands that a directive of a template with `arity` inputs produces. -/
def commands
    [Neg R]
    (arity : Nat) : Directive R → List (Command R)
  | .allocate _ => []
  | .cz first second => [.entangle (first.qubit arity) (second.qubit arity)]
  | .j angle source target =>
      [.entangle (source.qubit arity) (target.qubit arity),
        .measure (source.qubit arity) (-angle) [] [],
        .correctX (target.qubit arity) [source.qubit arity]]
  | .measure angle wire => [.measure (wire.qubit arity) angle [] []]

/-- The preparations that a directive produces when `base` is the next qubit. -/
def preparations (base : Nat) : Directive R → List (Preparation R)
  | .allocate count => [.ancillas (List.range' base count)]
  | _ => []

/-- A directive that allocates at least one ancilla, mentions only wires that are
defined when `allocated` ancillas exist, and uses no wire twice. -/
structure Sound
    (arity allocated : Nat)
    (directive : Directive R) : Prop where
  /-- Batches of ancillas are not empty. -/
  batch_pos : ∀ count, directive = .allocate count → 1 ≤ count
  /-- Every wire is an input or an allocated ancilla. -/
  defined : ∀ wire ∈ directive.wires, wire.Defined arity allocated
  /-- The wires are different. -/
  wires_nodup : directive.wires.Nodup

/-- A fault of a directive, for each way in which it can fail to be sound. -/
inductive HasFault
    (arity allocated : Nat) : Directive R → DirectiveFault → Prop
  | emptyBatch : HasFault arity allocated (.allocate 0) .emptyBatch
  | undefinedInput
      {directive : Directive R}
      {index : Nat}
      (member : .input index ∈ directive.wires)
      (above : arity ≤ index) :
      HasFault arity allocated directive (.undefinedInput index arity)
  | unallocatedAncilla
      {directive : Directive R}
      {index : Nat}
      (member : .ancilla index ∈ directive.wires)
      (above : allocated ≤ index) :
      HasFault arity allocated directive (.unallocatedAncilla index allocated)
  | singleWireCZ (wire : Wire) :
      HasFault arity allocated (.cz wire wire) (.singleWireCZ (wire.qubit arity))
  | singleWireJ (angle : R) (wire : Wire) :
      HasFault arity allocated (.j angle wire wire)
        (.singleWireJ (wire.qubit arity))

/-- A directive with a fault is not sound. -/
theorem HasFault.not_sound
    {arity allocated : Nat}
    {directive : Directive R}
    {fault : DirectiveFault}
    (faulty : directive.HasFault arity allocated fault) :
    ¬directive.Sound arity allocated := by
  intro sound
  cases faulty with
  | emptyBatch => exact absurd (sound.batch_pos 0 rfl) (by decide)
  | undefinedInput member above =>
      exact absurd (sound.defined _ member) (Nat.not_lt.2 above)
  | unallocatedAncilla member above =>
      exact absurd (sound.defined _ member) (Nat.not_lt.2 above)
  | singleWireCZ wire => simpa [wires] using sound.wires_nodup
  | singleWireJ angle wire => simpa [wires] using sound.wires_nodup

/-- Directives each of which is sound after the allocations of the earlier ones. -/
def AllSound
    (arity : Nat) : Nat → List (Directive R) → Prop
  | _, [] => True
  | allocated, directive :: rest =>
      directive.Sound arity allocated ∧
        AllSound arity (allocated + directive.allocated) rest

/-- The directives are sound one after another if each of them is sound at its
position. -/
theorem allSound_iff
    {arity allocated : Nat}
    {directives : List (Directive R)} :
    AllSound arity allocated directives ↔
      ∀ (index : Nat) (directive : Directive R),
        directives[index]? = some directive →
          directive.Sound arity
            (allocated + ((directives.take index).map Directive.allocated).sum) := by
  induction directives generalizing allocated with
  | nil => simp [AllSound]
  | cons head rest inductionHypothesis =>
      rw [AllSound, inductionHypothesis]
      constructor
      · rintro ⟨sound, soundLater⟩ index directive there
        cases index with
        | zero =>
            obtain rfl := Option.some.inj there
            exact sound
        | succ index =>
            have later := soundLater index directive there
            rwa [Nat.add_assoc] at later
      · intro sound
        refine ⟨sound 0 head rfl, fun index directive there => ?_⟩
        have later := sound (index + 1) directive there
        rwa [List.take_succ_cons, List.map_cons, List.sum_cons,
          ← Nat.add_assoc] at later

/-- Sound directives mention only wires that exist. -/
theorem AllSound.exists_of_mem
    {arity allocated : Nat}
    {directives : List (Directive R)}
    (sound : AllSound arity allocated directives) :
    ∀ directive ∈ directives, ∀ wire ∈ directive.wires, wire.Exists arity := by
  intro directive member wire mentioned
  obtain ⟨index, there⟩ := List.mem_iff_getElem?.1 member
  exact ((allSound_iff.1 sound index directive there).defined wire mentioned).toExists

end Directive

namespace Draft

variable {R : Type}

/-- The draft with everything that a directive produces. -/
def extend
    [Neg R]
    (arity : Nat)
    (draft : Draft R)
    (directive : Directive R) : Draft R where
  allocated := draft.allocated + directive.allocated
  preparations :=
    draft.preparations ++ directive.preparations (arity + draft.allocated)
  commands := draft.commands ++ directive.commands arity

/-- A directive that allocates nothing only emits its commands. -/
theorem extend_eq_emit
    [Neg R]
    {arity : Nat}
    (draft : Draft R)
    {directive : Directive R}
    (allocatesNone : directive.allocated = 0)
    (preparesNone : directive.preparations (arity + draft.allocated) = []) :
    draft.extend arity directive = draft.emit (directive.commands arity) := by
  simp [extend, emit, allocatesNone, preparesNone]

/-- A defined wire is resolved to its qubit; any other wire is a fault of every
directive that mentions it. -/
theorem resolve_eq
    (arity allocated : Nat)
    (wire : Wire) :
    (wire.Defined arity allocated ∧
      resolve arity allocated wire = .ok (wire.qubit arity)) ∨
    ∃ fault, resolve arity allocated wire = .error fault ∧
      ∀ directive : Directive R, wire ∈ directive.wires →
        directive.HasFault arity allocated fault := by
  cases wire with
  | input index =>
      by_cases below : index < arity
      · exact .inl ⟨below, if_pos below⟩
      · exact .inr ⟨_, if_neg below, fun directive member =>
          .undefinedInput member (Nat.not_lt.1 below)⟩
  | ancilla index =>
      by_cases below : index < allocated
      · exact .inl ⟨below, if_pos below⟩
      · exact .inr ⟨_, if_neg below, fun directive member =>
          .unallocatedAncilla member (Nat.not_lt.1 below)⟩

/-- Two wires of a directive are resolved to different qubits if the directive is
sound; otherwise one of its faults is reported. -/
theorem resolvePair_eq
    (arity allocated : Nat)
    (directive : Directive R)
    {first second : Wire}
    (mentions : directive.wires = [first, second])
    {single : Qubit → DirectiveFault}
    (faultOfSame : first = second →
      directive.HasFault arity allocated (single (first.qubit arity)))
    (next : Qubit → Qubit → Draft R) :
    let paired : Except DirectiveFault (Draft R) := do
      let a ← resolve arity allocated first
      let b ← resolve arity allocated second
      if a = b then .error (single a) else .ok (next a b)
    (directive.Sound arity allocated ∧
      paired = .ok (next (first.qubit arity) (second.qubit arity))) ∨
    ∃ fault, directive.HasFault arity allocated fault ∧ paired = .error fault := by
  intro paired
  rcases resolve_eq arity allocated first with
    ⟨firstDefined, firstResolved⟩ | ⟨fault, undefined, faulty⟩
  case inr =>
    refine .inr ⟨fault, faulty directive (by simp [mentions]), ?_⟩
    simp only [paired, undefined]
    rfl
  rcases resolve_eq arity allocated second with
    ⟨secondDefined, secondResolved⟩ | ⟨fault, undefined, faulty⟩
  case inr =>
    refine .inr ⟨fault, faulty directive (by simp [mentions]), ?_⟩
    simp only [paired, firstResolved, undefined]
    rfl
  have compared : paired =
      if first.qubit arity = second.qubit arity then
        .error (single (first.qubit arity))
      else .ok (next (first.qubit arity) (second.qubit arity)) := by
    simp only [paired, firstResolved, secondResolved]
    rfl
  rw [compared]
  by_cases same : first = second
  · exact .inr ⟨_, faultOfSame same, if_pos (congrArg _ same)⟩
  · have apart : first.qubit arity ≠ second.qubit arity := fun equal =>
      same (Wire.qubit_injective firstDefined.toExists secondDefined.toExists equal)
    refine .inl ⟨⟨?_, ?_, ?_⟩, if_neg apart⟩
    · rintro count rfl
      cases mentions
    · simp [mentions, firstDefined, secondDefined]
    · simpa [mentions] using same

section Add

variable [Scalar R]

/-- A sound directive is added, and what it adds does not depend on the commands of
the draft; any other directive is reported with one of its faults. -/
theorem add_eq
    (arity : Nat)
    (draft : Draft R)
    (directive : Directive R) :
    (directive.Sound arity draft.allocated ∧
      draft.add arity directive = .ok (draft.extend arity directive)) ∨
    ∃ fault, directive.HasFault arity draft.allocated fault ∧
      draft.add arity directive = .error fault := by
  cases directive with
  | allocate count =>
      by_cases empty : count = 0
      · subst empty
        exact .inr ⟨_, .emptyBatch, rfl⟩
      · refine .inl ⟨⟨?_, by simp [Directive.wires], List.nodup_nil⟩, ?_⟩
        · rintro _ ⟨rfl⟩
          exact Nat.one_le_iff_ne_zero.2 empty
        · rw [add, if_neg empty]
          simp [extend, allocate, Directive.allocated, Directive.preparations,
            Directive.commands]
  | cz first second =>
      rw [extend_eq_emit draft rfl rfl]
      refine resolvePair_eq arity draft.allocated (.cz first second) rfl ?_ _
      rintro rfl
      exact .singleWireCZ first
  | j angle source target =>
      rw [extend_eq_emit draft rfl rfl]
      refine resolvePair_eq arity draft.allocated (.j angle source target) rfl ?_
        fun a b => draft.emit
          [.entangle a b, .measure a (-angle) [] [], .correctX b [a]]
      rintro rfl
      exact .singleWireJ angle source
  | measure angle wire =>
      rw [extend_eq_emit draft rfl rfl, add]
      rcases resolve_eq arity draft.allocated wire with
        ⟨wireDefined, resolved⟩ | ⟨fault, undefined, faulty⟩
      · rw [resolved]
        exact .inl ⟨⟨by simp, by simp [Directive.wires, wireDefined],
          by simp [Directive.wires]⟩, rfl⟩
      · rw [undefined]
        exact .inr ⟨fault, faulty _ (by simp [Directive.wires]), rfl⟩

/-- Adding directives reports the first faulty one, with its position, and
otherwise adds what all of them produce. -/
theorem addAll_eq
    (arity index : Nat)
    (draft : Draft R)
    (directives : List (Directive R)) :
    (Directive.AllSound arity draft.allocated directives ∧
      draft.addAll arity index directives =
        .ok (directives.foldl (extend arity) draft)) ∨
    ∃ before directive after fault,
      directives = before ++ directive :: after ∧
      Directive.AllSound arity draft.allocated before ∧
      directive.HasFault arity
        (draft.allocated + (before.map Directive.allocated).sum) fault ∧
      draft.addAll arity index directives =
        .error (.directive (index + before.length) fault) := by
  induction directives generalizing index draft with
  | nil => exact .inl ⟨trivial, rfl⟩
  | cons directive rest inductionHypothesis =>
      rw [addAll]
      rcases draft.add_eq arity directive with ⟨sound, added⟩ | ⟨fault, faulty, failed⟩
      · rw [added]
        rcases inductionHypothesis (index + 1) (draft.extend arity directive) with
          ⟨soundLater, all⟩ |
          ⟨before, faulted, after, fault, split, soundBefore, faulty, failed⟩
        · exact .inl ⟨⟨sound, soundLater⟩, all⟩
        · refine .inr ⟨directive :: before, faulted, after, fault, ?_,
            ⟨sound, soundBefore⟩, ?_, ?_⟩
          · rw [split, List.cons_append]
          · rw [List.map_cons, List.sum_cons, ← Nat.add_assoc]
            exact faulty
          · rw [List.length_cons, Nat.add_comm before.length, ← Nat.add_assoc]
            exact failed
      · rw [failed]
        exact .inr ⟨[], directive, rest, fault, rfl, trivial, faulty, rfl⟩

end Add

/-! ## The finished draft -/

section Extend

variable [Neg R]

theorem allocated_foldl_extend
    (arity : Nat)
    (draft : Draft R)
    (directives : List (Directive R)) :
    (directives.foldl (extend arity) draft).allocated =
      directives.foldl (fun count directive => count + directive.allocated)
        draft.allocated := by
  induction directives generalizing draft with
  | nil => rfl
  | cons directive rest inductionHypothesis => exact inductionHypothesis _

/-- The commands of the directives follow those of the draft in order. -/
theorem commands_foldl_extend
    (arity : Nat)
    (draft : Draft R)
    (directives : List (Directive R)) :
    (directives.foldl (extend arity) draft).commands =
      draft.commands ++ directives.flatMap (Directive.commands arity) := by
  induction directives generalizing draft with
  | nil => exact (List.append_nil _).symm
  | cons directive rest inductionHypothesis =>
      rw [List.foldl_cons, inductionHypothesis, List.flatMap_cons,
        ← List.append_assoc]
      rfl

/-- A property of drafts that every directive keeps holds of the finished draft. -/
theorem foldl_extend_induction
    {property : Draft R → Prop}
    {arity : Nat}
    (keeps : ∀ draft directive, property draft →
      property (draft.extend arity directive))
    {draft : Draft R}
    (holds : property draft)
    (directives : List (Directive R)) :
    property (directives.foldl (extend arity) draft) := by
  induction directives generalizing draft with
  | nil => exact holds
  | cons directive rest inductionHypothesis =>
      exact inductionHypothesis (keeps draft directive holds)

end Extend

/-- A draft that prepares inputs in their states and everything else in the equal
superposition. -/
def Prepares
    (inputs : List (Ket R))
    (draft : Draft R) : Prop :=
  ∀ entry ∈ draft.preparations.flatMap Preparation.declared,
    entry.2 = (inputs[entry.1]?).getD .plus

theorem prepares_ofInputs (inputs : List (Ket R)) :
    (ofInputs inputs).Prepares inputs := by
  intro entry member
  obtain ⟨preparation, inside, declares⟩ := List.mem_flatMap.1 member
  obtain ⟨⟨ket, index⟩, listed, rfl⟩ := List.mem_map.1 inside
  rw [List.mem_singleton.1 declares, List.mem_zipIdx_iff_getElem?.1 listed,
    Option.getD_some]

/-- Ancillas are no inputs and start in the equal superposition. -/
theorem Prepares.extend
    [Neg R]
    {inputs : List (Ket R)}
    {draft : Draft R}
    (prepares : draft.Prepares inputs)
    (directive : Directive R) :
    (draft.extend inputs.length directive).Prepares inputs := by
  intro entry member
  change entry ∈ (draft.preparations ++ _).flatMap Preparation.declared at member
  rw [List.flatMap_append, List.mem_append] at member
  rcases member with old | new
  · exact prepares entry old
  · cases directive with
    | allocate count =>
        rw [Directive.preparations, List.flatMap_singleton,
          Preparation.declared_ancillas] at new
        obtain ⟨qubit, inside, rfl⟩ := List.mem_map.1 new
        have above : inputs.length ≤ qubit :=
          Nat.le_trans (Nat.le_add_right _ _) (List.mem_range'_1.1 inside).1
        rw [List.getElem?_eq_none above, Option.getD_none]
    | cz first second => cases new
    | j angle source target => cases new
    | measure angle wire => cases new

end Draft

namespace Template

variable {R : Type}

/-- The draft of a template whose directives are all sound. -/
def finishedDraft
    [Neg R]
    (template : Template R) : Draft R :=
  template.directives.foldl (Draft.extend template.inputs.length)
    (Draft.ofInputs template.inputs)

theorem commands_finishedDraft
    [Neg R]
    (template : Template R) :
    template.finishedDraft.commands =
      template.directives.flatMap (Directive.commands template.inputs.length) :=
  Draft.commands_foldl_extend _ _ _

theorem allocated_finishedDraft
    [Neg R]
    (template : Template R) :
    template.finishedDraft.allocated = template.ancillaCount :=
  Draft.allocated_foldl_extend _ _ _

variable [Scalar R]

theorem prepares_finishedDraft (template : Template R) :
    template.finishedDraft.Prepares template.inputs :=
  Draft.foldl_extend_induction (fun _ directive prepares => prepares.extend directive)
    (Draft.prepares_ofInputs template.inputs) template.directives

/-- Compiling a template ends in one of three ways. The first directive that is not
sound is reported; if there is none, the pattern that all directives produce is
checked, and it is either rejected or the result. -/
theorem compile_eq (template : Template R) :
    (Directive.AllSound template.inputs.length 0 template.directives ∧
      template.compile =
        match template.finishedDraft.toPattern.check with
        | .error breaches => .error (.template template.name (.illFormed breaches))
        | .ok _ => .ok template.finishedDraft.toPattern) ∨
    ∃ before directive after fault,
      template.directives = before ++ directive :: after ∧
      Directive.AllSound template.inputs.length 0 before ∧
      directive.HasFault template.inputs.length
        (before.map Directive.allocated).sum fault ∧
      template.compile =
        .error (.template template.name (.directive before.length fault)) := by
  have empty : (Draft.ofInputs template.inputs).allocated = 0 := rfl
  have outcome := Draft.addAll_eq template.inputs.length 0
    (Draft.ofInputs template.inputs) template.directives
  simp only [empty, Nat.zero_add] at outcome
  rcases outcome with
    ⟨sound, all⟩ | ⟨before, directive, after, fault, split, sound, faulty, failed⟩
  · have finished : template.draft = .ok template.finishedDraft := all
    refine .inl ⟨sound, ?_⟩
    rw [compile, toPattern, finished]
    dsimp only
    cases template.finishedDraft.toPattern.check with
    | error breaches => rfl
    | ok width => rfl
  · have reported :
        template.draft = .error (.directive before.length fault) := failed
    refine .inr ⟨before, directive, after, fault, split, sound, faulty, ?_⟩
    rw [compile, toPattern, reported]
    rfl

/-- A template that compiles mentions only wires that exist. Its pattern is
well-formed and consists of the commands of its directives, and it prepares inputs
in their states and ancillas in the equal superposition. -/
theorem compile_eq_ok
    {template : Template R}
    {pattern : Pattern R}
    (compiled : template.compile = .ok pattern) :
    (∃ width, pattern.check = .ok width) ∧
      pattern.commands = template.directives.flatMap
        (Directive.commands template.inputs.length) ∧
      (∀ directive ∈ template.directives, ∀ wire ∈ directive.wires,
        wire.Exists template.inputs.length) ∧
      ∀ entry ∈ pattern.declared,
        entry.2 = (template.inputs[entry.1]?).getD .plus := by
  rcases template.compile_eq with ⟨sound, all⟩ | ⟨_, _, _, _, _, _, _, failed⟩
  · rw [all] at compiled
    split at compiled
    · cases compiled
    · next width accepted =>
        obtain rfl := Except.ok.inj compiled
        exact ⟨⟨width, accepted⟩, template.commands_finishedDraft,
          sound.exists_of_mem, template.prepares_finishedDraft⟩
  · rw [failed] at compiled
    cases compiled

end Template

end MeasurementCalculus
