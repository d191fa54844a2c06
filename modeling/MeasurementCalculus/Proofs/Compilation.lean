import MeasurementCalculus.Proofs.BornRule
import MeasurementCalculus.Proofs.Circuit
import MeasurementCalculus.Template.Library

/-!
# Compiled patterns implement circuits

A compiled pattern works with more qubits than its circuit needs at any time:
some are measured, and others wait for a rotation where the circuit has blank
wires. What remains is the same in both, except that every rotation of the
pattern has kept one of two equally likely outcomes. Every directive keeps
this relation, whatever its measurement yields.
-/

namespace MeasurementCalculus

open Function (update)

/-! ## The loss of amplitude -/

/-- The factor by which the amplitudes shrink in a number of rotations. -/
noncomputable def dilution (rotations : Nat) : ℝ :=
  Scalar.invSqrtTwo ^ rotations

theorem dilution_pos (rotations : Nat) : 0 < dilution rotations := by
  rw [dilution, Scalar.invSqrtTwo_real]
  positivity

theorem dilution_mul_self (rotations : Nat) :
    dilution rotations * dilution rotations = (1 / 2) ^ rotations := by
  have half : (Scalar.invSqrtTwo : ℝ) * Scalar.invSqrtTwo = 1 / 2 := by
    rw [← Complex.normSq_ofReal, normSq_invSqrtTwo]
  rw [dilution, ← mul_pow, half]

namespace Wave

variable {n : Nat}

/-! ## The relation of circuit and pattern -/

/-- The wave of a pattern that has performed a number of rotations, and that
of its circuit. The consumed qubits and the outputs that lie ahead factor
out of both. -/
def Simulates
    (consumed ahead : List Qubit)
    (rotations : Nat)
    (circuit pattern : Wave n) : Prop :=
  ∃ (circuitKets patternKets : Qubit → Bool → ℂ) (core : Wave n),
    Factors (consumed ++ ahead) circuitKets core circuit ∧
    Factors (consumed ++ ahead) patternKets ((dilution rotations : ℂ) • core)
      pattern ∧
    ∀ qubit ∈ ahead,
      circuitKets qubit = Ket.zero.state ∧ patternKets qubit = Ket.plus.state

namespace Simulates

variable {consumed ahead : List Qubit} {rotations : Nat}
variable {circuit pattern : Wave n}

/-- Every rotation halves the squared norm. -/
theorem normSq_eq
    (simulates : Simulates consumed ahead rotations circuit pattern) :
    pattern.normSq = (1 / 2) ^ rotations * circuit.normSq := by
  obtain ⟨circuitKets, patternKets, core, circuitFactors, patternFactors, _⟩ :=
    simulates
  rw [circuitFactors.normSq_eq patternFactors, Complex.normSq_ofReal,
    dilution_mul_self]

/-- When no outputs lie ahead, the unmeasured qubits are in the same state. -/
theorem agreeOff
    (simulates : Simulates consumed [] rotations circuit pattern) :
    AgreeOff consumed circuit.normalized pattern.normalized := by
  have norm := simulates.normSq_eq
  obtain ⟨circuitKets, patternKets, core, circuitFactors, patternFactors, _⟩ :=
    simulates
  rw [List.append_nil] at circuitFactors patternFactors
  refine ⟨circuitKets, patternKets, _, 1, norm_one, circuitFactors.smul _, ?_⟩
  refine (patternFactors.smul _).congr_core ?_
  have factor : 1 / Real.sqrt pattern.normSq * dilution rotations =
      1 / Real.sqrt circuit.normSq := by
    rw [norm, ← dilution_mul_self, Real.sqrt_mul (mul_self_nonneg _),
      Real.sqrt_mul_self (dilution_pos rotations).le, one_div_mul_eq_div,
      div_mul_cancel_left₀ (dilution_pos rotations).ne', one_div]
  rw [smul_smul, ← Complex.ofReal_mul, factor, one_smul]

/-- An entanglement of the pattern is a controlled-Z of the circuit. -/
theorem entangle
    (simulates : Simulates consumed ahead rotations circuit pattern)
    {first second : Qubit}
    (firstInside : first < n)
    (secondInside : second < n)
    (firstApart : first ∉ consumed ++ ahead)
    (secondApart : second ∉ consumed ++ ahead) :
    Simulates consumed ahead rotations (circuit.controlledZAt first second)
      (pattern.controlledZAt first second) := by
  obtain ⟨circuitKets, patternKets, core, circuitFactors, patternFactors, waiting⟩ :=
    simulates
  lift first to Fin n using firstInside
  lift second to Fin n using secondInside
  rw [controlledZAt_val, controlledZAt_val]
  refine ⟨circuitKets, patternKets, core.controlledZ first second,
    circuitFactors.controlledZ_of_notMem firstApart secondApart, ?_, waiting⟩
  rw [← controlledZ_smul]
  exact patternFactors.controlledZ_of_notMem firstApart secondApart

/-- The outputs that lie ahead are not affected by new states of another qubit. -/
theorem waiting_update
    {circuitKets patternKets : Qubit → Bool → ℂ}
    (waiting : ∀ qubit ∈ ahead,
      circuitKets qubit = Ket.zero.state ∧ patternKets qubit = Ket.plus.state)
    {qubit : Qubit}
    (apart : qubit ∉ ahead)
    (circuitKet patternKet : Bool → ℂ) :
    ∀ other ∈ ahead,
      update circuitKets qubit circuitKet other = Ket.zero.state ∧
        update patternKets qubit patternKet other = Ket.plus.state := by
  intro other member
  have different : other ≠ qubit := by
    rintro rfl
    exact apart member
  rw [Function.update_of_ne different, Function.update_of_ne different]
  exact waiting other member

/-- A measurement of the pattern is a readout of the circuit. -/
theorem read
    (simulates : Simulates consumed ahead rotations circuit pattern)
    {qubit : Qubit}
    (inside : qubit < n)
    (apart : qubit ∉ consumed ++ ahead)
    {ket : Bool → ℂ}
    (unit : IsUnitKet ket) :
    Simulates (consumed ++ [qubit]) ahead rotations
      (circuit.gateAt qubit (.projector ket))
      (pattern.gateAt qubit (.projector ket)) := by
  obtain ⟨circuitKets, patternKets, core, circuitFactors, patternFactors, waiting⟩ :=
    simulates
  lift qubit to Fin n using inside
  rw [gateAt_val, gateAt_val]
  have sameMembers (other : Qubit) :
      other ∈ (consumed ++ ahead) ++ [qubit.val] ↔
        other ∈ (consumed ++ [qubit.val]) ++ ahead := by
    simp only [List.mem_append]
    tauto
  have projected := patternFactors.project apart unit
  rw [overlap_smul] at projected
  exact ⟨_, _, core.overlap qubit ket,
    (circuitFactors.project apart unit).congr_mem sameMembers,
    projected.congr_mem sameMembers,
    waiting_update waiting (fun member => apart (List.mem_append_right _ member))
      ket ket⟩

/-- The commands of a rotation perform a rotation of the circuit, for both outcomes
of the measurement. -/
theorem rotate
    {source target : Qubit}
    (simulates : Simulates consumed (target :: ahead) rotations circuit pattern)
    (sourceInside : source < n)
    (targetInside : target < n)
    (different : source ≠ target)
    (sourceApart : source ∉ consumed ++ ahead)
    (targetApart : target ∉ consumed ++ ahead)
    (angle : ℝ)
    (outcome : Bool) :
    Simulates (consumed ++ [source]) ahead (rotations + 1)
      ((circuit.gateAt source (.rotation angle)).renameAt source target)
      (((pattern.controlledZAt source target).gateAt source
        (.projector (equatorialKet (-angle) outcome))).gateAt target
          (.onlyIf outcome .pauliX)) := by
  obtain ⟨circuitKets, patternKets, core, circuitFactors, patternFactors, waiting⟩ :=
    simulates
  obtain ⟨⟨blank, fresh⟩, othersWait⟩ := List.forall_mem_cons.1 waiting
  lift source to Fin n using sourceInside
  lift target to Fin n using targetInside
  simp only [gateAt_val, renameAt_val, controlledZAt_val]
  have different : source ≠ target := fun same => different (congrArg Fin.val same)
  have before (other : Qubit) :
      other ∈ consumed ++ target.val :: ahead ↔
        other ∈ (consumed ++ ahead) ++ [target.val] := by
    simp only [List.mem_append, List.mem_cons, List.not_mem_nil]
    tauto
  have after (other : Qubit) :
      other ∈ (consumed ++ ahead) ++ [source.val] ↔
        other ∈ (consumed ++ [source.val]) ++ ahead := by
    simp only [List.mem_append]
    tauto
  have rotatedCircuit := (circuitFactors.congr_mem before).rotate_rename blank
    different sourceApart targetApart angle
  have rotatedPattern := (patternFactors.congr_mem before).rotate_measure fresh
    different sourceApart targetApart angle outcome
  refine ⟨_, _, rotated angle source target core,
    rotatedCircuit.congr_mem after,
    (rotatedPattern.congr_mem after).congr_core ?_,
    waiting_update othersWait
      (fun member => sourceApart (List.mem_append_right _ member)) _ _⟩
  rw [rotated_smul, smul_smul, dilution, dilution, pow_succ', Complex.ofReal_mul]

/-! ## Directives -/

section Directive

variable {arity : Nat} {readout bits : Qubit → Bool}

/-- The commands of a directive do in the pattern what the directive does in the
circuit. -/
theorem act
    {directive : Directive ℝ}
    (simulates : Simulates consumed
      (directive.outputs.map (Wire.qubit arity) ++ ahead) rotations circuit pattern)
    (legal : Command.AllLegal n consumed (directive.commands arity))
    (apart : ∀ wire ∈ directive.wires, wire.qubit arity ∉ ahead)
    (agree : ∀ wire ∈ directive.readouts,
      bits (wire.qubit arity) = readout (wire.qubit arity)) :
    Simulates (consumed ++ Command.measuredBy (directive.commands arity)) ahead
      (rotations + directive.outputs.length)
      (Circuit.act arity readout directive circuit)
      (Wave.follow bits (directive.commands arity) pattern) := by
  cases directive with
  | allocate count =>
      rw [Directive.commands, Command.measuredBy_nil, List.append_nil]
      exact simulates
  | cz first second =>
      obtain ⟨entangle, _⟩ := legal
      obtain ⟨firstInside, firstFresh⟩ := entangle.entangle_first
      obtain ⟨secondInside, secondFresh⟩ := entangle.entangle_second
      have firstAhead := apart first List.mem_cons_self
      have secondAhead := apart second (List.mem_cons_of_mem _ List.mem_cons_self)
      change Simulates (consumed ++ []) ahead rotations _ _
      rw [List.append_nil]
      exact simulates.entangle firstInside secondInside
        (List.not_mem_append firstFresh firstAhead)
        (List.not_mem_append secondFresh secondAhead)
  | j angle source target =>
      obtain ⟨entangle, _⟩ := legal
      obtain ⟨sourceInside, sourceFresh⟩ := entangle.entangle_first
      obtain ⟨targetInside, targetFresh⟩ := entangle.entangle_second
      have sourceAhead := apart source List.mem_cons_self
      have targetAhead := apart target (List.mem_cons_of_mem _ List.mem_cons_self)
      have rotated := simulates.rotate sourceInside targetInside
        entangle.entangle_ne
        (List.not_mem_append sourceFresh sourceAhead)
        (List.not_mem_append targetFresh targetAhead)
        angle (bits (source.qubit arity))
      simpa [Directive.commands, Directive.outputs, Circuit.act, Wave.act,
        Command.measured?] using rotated
  | measure angle wire =>
      obtain ⟨measure, _⟩ := legal
      have ahead := apart wire List.mem_cons_self
      have projected := simulates.read
        (measure.target_lt (wire.qubit arity) (by simp))
        (List.not_mem_append
          (measure.target_notMem (wire.qubit arity) (by simp)) ahead)
        (isUnitKet_equatorialKet angle (readout (wire.qubit arity)))
      simpa [Directive.commands, Directive.outputs, Circuit.act, Wave.act,
        Command.measured?, agree wire List.mem_cons_self] using projected

/-- A directive keeps its readout in the pattern exactly if it does so in the
circuit. -/
theorem kept_iff
    {directive : Directive ℝ}
    {consumedLater aheadLater : List Qubit}
    (before : Simulates consumed ahead rotations circuit pattern)
    (after : Simulates consumedLater aheadLater
      (rotations + directive.outputs.length)
      (Circuit.act arity readout directive circuit)
      (Wave.follow bits (directive.commands arity) pattern))
    (positive : 0 < circuit.normSq) :
    Wave.Kept bits (directive.commands arity) pattern ↔
      Circuit.Kept arity readout [directive] circuit := by
  have weight : (0 : ℝ) < (1 / 2) ^ rotations := by positivity
  have normBefore := before.normSq_eq
  have normAfter := after.normSq_eq
  cases directive with
  | allocate count =>
      exact iff_of_true (Wave.kept_nil bits pattern)
        (Circuit.normSq_act arity readout rfl circuit).2
  | cz first second =>
      exact iff_of_true (Wave.kept_singleton bits rfl pattern)
        (Circuit.normSq_act arity readout rfl circuit).2
  | j angle source target =>
      have noReadout : (Directive.j angle source target).readouts = [] := rfl
      obtain ⟨sameNorm, kept⟩ := Circuit.normSq_act arity readout noReadout circuit
      have single : Command.measuredBy
          ((Directive.j angle source target).commands arity) =
            [source.qubit arity] := rfl
      have half : (Wave.follow bits
            ((Directive.j angle source target).commands arity) pattern).normSq /
          pattern.normSq = 1 / 2 := by
        rw [normAfter, normBefore, sameNorm]
        change (1 / 2) ^ (rotations + 1) * _ / _ = _
        field_simp
        ring
      refine iff_of_true ?_ kept
      rw [Wave.Kept, Wave.conditionals_eq_singleton bits single,
        List.forall_mem_singleton, half, Scalar.probabilityFloor_real]
      norm_num
  | measure angle wire =>
      have single : Command.measuredBy
          ((Directive.measure angle wire).commands arity) =
            [wire.qubit arity] := rfl
      rw [Circuit.kept_measure, Wave.Kept,
        Wave.conditionals_eq_singleton bits single, List.forall_mem_singleton,
        normAfter, normBefore]
      change _ < (1 / 2) ^ rotations * _ / _ ↔ _
      rw [mul_div_mul_left _ _ weight.ne']

/-- Directives all of whose outputs are fresh lead to the same state in the circuit
and in the pattern, and the same readouts are kept. -/
theorem follow
    {directives : List (Directive ℝ)}
    (simulates : Simulates consumed
      ((directives.flatMap Directive.outputs).map (Wire.qubit arity)) rotations
      circuit pattern)
    (legal : Command.AllLegal n consumed
      (directives.flatMap (Directive.commands arity)))
    (exist : ∀ directive ∈ directives, ∀ wire ∈ directive.wires, wire.Exists arity)
    (fresh : directives.Pairwise fun earlier later =>
      ∀ output ∈ later.outputs, output ∉ earlier.wires)
    (agree : ∀ directive ∈ directives, ∀ wire ∈ directive.readouts,
      bits (wire.qubit arity) = readout (wire.qubit arity)) :
    Simulates (consumed ++ Command.measuredBy
        (directives.flatMap (Directive.commands arity))) []
      (rotations + (directives.flatMap Directive.outputs).length)
      (Circuit.follow arity readout directives circuit)
      (Wave.follow bits (directives.flatMap (Directive.commands arity)) pattern) ∧
    (0 < circuit.normSq →
      (Wave.Kept bits (directives.flatMap (Directive.commands arity)) pattern ↔
        Circuit.Kept arity readout directives circuit)) := by
  induction directives generalizing consumed rotations circuit pattern with
  | nil =>
      refine ⟨?_, fun _ => iff_of_true (Wave.kept_nil _ _) (Circuit.kept_nil _ _ _)⟩
      simpa using simulates
  | cons directive rest inductionHypothesis =>
      rw [List.flatMap_cons, Command.allLegal_append] at legal
      rw [List.flatMap_cons, List.map_append] at simulates
      obtain ⟨existHere, existLater⟩ := List.forall_mem_cons.1 exist
      obtain ⟨freshHere, freshLater⟩ := List.pairwise_cons.1 fresh
      obtain ⟨agreeHere, agreeLater⟩ := List.forall_mem_cons.1 agree
      -- A later output is not among the wires of this directive, so it still waits.
      have apart : ∀ wire ∈ directive.wires, wire.qubit arity ∉
          (rest.flatMap Directive.outputs).map (Wire.qubit arity) := by
        intro wire member listed
        obtain ⟨output, produced, same⟩ := List.mem_map.1 listed
        obtain ⟨later, inside, outputMember⟩ := List.mem_flatMap.1 produced
        have outputExists := existLater later inside output
          (Directive.mem_wires_of_mem_outputs outputMember)
        obtain rfl := Wire.qubit_injective outputExists (existHere wire member) same
        exact freshHere later inside output outputMember member
      have next := simulates.act legal.1 apart agreeHere
      obtain ⟨last, keptLater⟩ :=
        inductionHypothesis next legal.2 existLater freshLater agreeLater
      refine ⟨?_, fun positive => ?_⟩
      · simpa [Nat.add_assoc] using last
      · rw [List.flatMap_cons, Wave.kept_append, Circuit.kept_cons,
          simulates.kept_iff next positive]
        exact and_congr_right fun kept => keptLater (kept.normSq_act_pos positive)

end Directive

end Simulates

end Wave

/-! ## Templates -/

namespace Pattern

theorem toProgram_eq_ok
    {R : Type}
    {pattern : Pattern R}
    {width : Nat}
    (accepted : pattern.check = .ok width) :
    pattern.toProgram = .ok ⟨pattern, width, accepted⟩ := by
  unfold toProgram
  split
  · next other checked =>
      obtain rfl := Except.ok.inj (checked.symm.trans accepted)
      rfl
  · next breaches checked =>
      cases checked.symm.trans accepted

end Pattern

namespace Template

/-- The enumeration of a program shows what the circuit of a template does. -/
structure Implements
    (template : Template ℝ)
    (program : Program ℝ)
    (branches : List (Branch ℝ program.width))
    (distribution : Distribution ℝ) : Prop where
  /-- An outcome occurs exactly if the circuit keeps its readouts. The outcomes of the
  rotations are arbitrary. -/
  mem_keys_iff : ∀ readout bits : Qubit → Bool,
    (∀ qubit ∈ template.readoutQubits, bits qubit = readout qubit) →
    (.along bits program.pattern.measured ∈ distribution.keys ↔
      template.CircuitKeeps program.width readout)
  /-- Its probability is that of the readouts, shared out evenly among the outcomes
  of the rotations. -/
  probability_eq : ∀ readout bits : Qubit → Bool,
    (∀ qubit ∈ template.readoutQubits, bits qubit = readout qubit) →
    template.CircuitKeeps program.width readout →
    distribution.probability (.along bits program.pattern.measured) =
      (1 / 2) ^ template.rotations *
        (template.circuitWave program.width readout).normSq
  /-- It has a branch, at the end of which the unmeasured qubits are in the state of
  the circuit, up to a factor of modulus one. -/
  exists_branch : ∀ readout bits : Qubit → Bool,
    (∀ qubit ∈ template.readoutQubits, bits qubit = readout qubit) →
    template.CircuitKeeps program.width readout →
    ∃ branch ∈ branches,
      branch.run.outcome = .along bits program.pattern.measured ∧
      Wave.AgreeOff program.pattern.measured
        (template.circuitWave program.width readout).normalized
        branch.run.register.wave
  /-- No two branches have the same outcome. -/
  nodup_outcome : (branches.map fun branch => branch.run.outcome).Nodup
  /-- No other outcomes occur. -/
  eq_along : ∀ outcome ∈ distribution.keys,
    ∃ bits, outcome = .along bits program.pattern.measured

/-- The pattern of a template starts in the product of the states in which the
template prepares its qubits. -/
theorem initialWave_eq
    {template : Template ℝ}
    {pattern : Pattern ℝ}
    {width : Nat}
    (lawful : pattern.Lawful width)
    (prepares : ∀ entry ∈ pattern.declared,
      entry.2 = (template.inputs[entry.1]?).getD .plus) :
    pattern.initialWave width =
      Wave.product fun qubit => template.patternKet qubit.val := by
  unfold Pattern.initialWave Pattern.initialState patternKet
  congr 1
  funext qubit
  obtain ⟨⟨other, ket⟩, declared, same⟩ :=
    List.mem_map.1 ((lawful.mem_declared_iff qubit.val).2 qubit.isLt)
  change other = qubit.val at same
  have found := (Run.lookup_eq_some_iff lawful.declared_nodup other ket).2 declared
  rw [← same, found, Option.getD_some, ← prepares _ declared]

/-- At the start nothing is consumed and all outputs lie ahead. -/
theorem simulates_start
    {template : Template ℝ}
    (fresh : template.OutputsFresh)
    (n : Nat) :
    Wave.Simulates [] template.outputQubits 0 (template.circuitStart n)
      (Wave.product fun qubit => template.patternKet qubit.val) := by
  have circuitFactors := Wave.factors_product (n := n)
    fun qubit (_ : qubit ∈ template.outputQubits) =>
      template.isUnitKet_circuitKet qubit
  have patternFactors := Wave.factors_product (n := n)
    fun qubit (_ : qubit ∈ template.outputQubits) =>
      template.isUnitKet_patternKet qubit
  have sameRest (qubit : Qubit) :
      (if qubit ∈ template.outputQubits then 1 else template.circuitKet qubit) =
        if qubit ∈ template.outputQubits then 1 else template.patternKet qubit := by
    unfold circuitKet
    split
    · rfl
    · rfl
  simp only [sameRest] at circuitFactors
  refine ⟨template.circuitKet, template.patternKet, _, circuitFactors, ?_, ?_⟩
  · rw [dilution, pow_zero, Complex.ofReal_one, one_smul]
    exact patternFactors
  · intro qubit member
    refine ⟨if_pos member, ?_⟩
    obtain ⟨output, produced, rfl⟩ := List.mem_map.1 member
    obtain ⟨directive, inside, outputMember⟩ := List.mem_flatMap.1 produced
    obtain ⟨index, rfl⟩ := fresh.isAncilla directive inside output outputMember
    have noInput : template.inputs[template.inputs.length + index]? = none :=
      List.getElem?_eq_none (Nat.le_add_right _ _)
    rw [Wire.qubit, patternKet, noInput, Option.getD_none]

/-- Along every path a compiled pattern simulates the circuit of its template with
the readouts of the path. -/
theorem simulates_circuitWave
    {template : Template ℝ}
    {program : Program ℝ}
    (compiled : template.compile = .ok program.pattern)
    (fresh : template.OutputsFresh)
    {readout bits : Qubit → Bool}
    (agree : ∀ qubit ∈ template.readoutQubits, bits qubit = readout qubit) :
    Wave.Simulates (Command.measuredBy program.pattern.commands) []
        template.rotations
        (template.circuitWave program.width readout)
        (Wave.follow bits program.pattern.commands
          (program.pattern.initialWave program.width)) ∧
      (Wave.Kept bits program.pattern.commands
          (program.pattern.initialWave program.width) ↔
        template.CircuitKeeps program.width readout) := by
  obtain ⟨_, commands, exist, prepares⟩ := compile_eq_ok compiled
  have legal := program.lawful.legal
  have agreeEach : ∀ directive ∈ template.directives,
      ∀ wire ∈ directive.readouts,
        bits (wire.qubit template.inputs.length) =
          readout (wire.qubit template.inputs.length) := by
    intro directive inside wire member
    exact agree _ (List.mem_map.2
      ⟨wire, List.mem_flatMap.2 ⟨directive, inside, member⟩, rfl⟩)
  rw [commands] at legal
  rw [commands, initialWave_eq program.lawful prepares]
  obtain ⟨last, sameKept⟩ := (simulates_start fresh program.width).follow legal
    exist fresh.notMem_wires agreeEach
  rw [List.nil_append, Nat.zero_add] at last
  refine ⟨last, sameKept ?_⟩
  rw [normSq_circuitStart]
  exact one_pos

/-- Compiled patterns implement the circuits of their templates, if the
output of every rotation is fresh: the same readouts are kept, with the
probabilities and the states that the circuit gives them. -/
theorem compile_implements_circuit
    {template : Template ℝ}
    {pattern : Pattern ℝ}
    (compiled : template.compile = .ok pattern)
    (fresh : template.OutputsFresh) :
    ∃ program : Program ℝ,
      pattern.toProgram = .ok program ∧
      ∀ {tolerance : ℝ} {distribution : Distribution ℝ},
        program.enumerate tolerance = .ok distribution →
        ∃ branches,
          program.branches tolerance = .ok branches ∧
          template.Implements program branches distribution := by
  obtain ⟨⟨width, accepted⟩, _⟩ := compile_eq_ok compiled
  obtain ⟨program, isProgram, rfl⟩ :
      ∃ program : Program ℝ,
        pattern.toProgram = .ok program ∧ program.pattern = pattern :=
    ⟨_, Pattern.toProgram_eq_ok accepted, rfl⟩
  refine ⟨program, isProgram, ?_⟩
  intro tolerance distribution success
  have nonneg := Program.nonneg_of_enumerate_eq_ok success
  refine ⟨_, program.branches_eq_ok nonneg, ?_⟩
  rw [Program.eq_pathDistribution success]
  have legal := program.lawful.legal
  constructor
  case mem_keys_iff =>
    intro readout bits agree
    rw [← (simulates_circuitWave compiled fresh agree).2]
    exact program.along_mem_keys_pathDistribution_iff bits
  case probability_eq =>
    intro readout bits agree keeps
    obtain ⟨simulates, sameKept⟩ := simulates_circuitWave compiled fresh agree
    rw [← simulates.normSq_eq]
    exact program.probability_pathDistribution (sameKept.2 keeps)
  case exists_branch =>
    intro readout bits agree keeps
    obtain ⟨simulates, sameKept⟩ := simulates_circuitWave compiled fresh agree
    refine ⟨_, (Branch.mem_kept_iff _ legal).2 ⟨bits, sameKept.2 keeps, rfl⟩,
      Branch.outcome_along legal _ bits, ?_⟩
    rw [Branch.wave_along]
    exact simulates.agreeOff
  case nodup_outcome =>
    exact Branch.nodup_outcome_kept _ program.lawful.legal
  case eq_along =>
    intro outcome member
    obtain ⟨bits, _, same⟩ := (program.mem_keys_pathDistribution_iff outcome).1 member
    exact ⟨bits, same⟩

theorem outputsFresh_search (first second : Bool) :
    (search first second : Template ℝ).OutputsFresh where
  isAncilla := by
    simp [search, Directive.outputs, Directive.measurePi]
  notMem_wires := by
    simp [search, Directive.outputs, Directive.wires, Directive.measurePi]

theorem search_implements_circuit :
    ∃ (pattern : Pattern ℝ) (program : Program ℝ),
      (search true false).compile = .ok pattern ∧
      pattern.toProgram = .ok program ∧
      ∃ branches,
        program.branches 1 = .ok branches ∧
        (search true false).Implements program branches
          program.pathDistribution := by
  obtain ⟨pattern, compiled⟩ : ∃ pattern : Pattern ℝ,
      (search true false).compile = .ok pattern := ⟨_, rfl⟩
  obtain ⟨program, isProgram, implements⟩ :=
    compile_implements_circuit compiled (outputsFresh_search true false)
  exact ⟨pattern, program, compiled, isProgram,
    implements (program.enumerate_eq_ok_of_one_le le_rfl)⟩

end Template

end MeasurementCalculus
