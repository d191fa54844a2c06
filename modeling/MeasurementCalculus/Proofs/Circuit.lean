import MeasurementCalculus.Proofs.Lowering
import MeasurementCalculus.Proofs.Rotation

/-!
# The circuit of a template

Besides its pattern, a template has a meaning as a circuit, which rotates
wires in place, renames them, and projects the wires that are read out.
Rotations involve no measurement, so the circuit depends on the bits of the
readouts alone. A wire that only comes into being as the output of a rotation
is in the first basis state before it.
-/

namespace MeasurementCalculus

namespace Wave

variable {n : Nat}

/-- Exchange the wires with the given numbers, if there are such wires. -/
def renameAt
    (source target : Qubit)
    (wave : Wave n) : Wave n :=
  if sourceInside : source < n then
    if targetInside : target < n then
      wave.rename ⟨source, sourceInside⟩ ⟨target, targetInside⟩
    else wave
  else wave

@[simp] theorem renameAt_val
    (source target : Fin n)
    (wave : Wave n) :
    renameAt source.val target.val wave = rename source target wave := by
  rw [renameAt, dif_pos source.isLt, dif_pos target.isLt]

theorem normSq_renameAt
    (source target : Qubit)
    (wave : Wave n) :
    (renameAt source target wave).normSq = wave.normSq := by
  unfold renameAt
  split
  · split
    · exact normSq_rename _ _ wave
    · rfl
  · rfl

end Wave

namespace Directive

variable {R : Type}

/-- The wires that a directive produces by a rotation. -/
def outputs : Directive R → List Wire
  | .j _ _ target => [target]
  | _ => []

/-- The wires that a directive reads out. -/
def readouts : Directive R → List Wire
  | .measure _ wire => [wire]
  | _ => []

theorem mem_wires_of_mem_outputs
    {directive : Directive R}
    {wire : Wire}
    (member : wire ∈ directive.outputs) :
    wire ∈ directive.wires := by
  cases directive with
  | allocate count => cases member
  | cz first second => cases member
  | j angle source target => exact List.mem_cons_of_mem _ member
  | measure angle wire => cases member

end Directive

namespace Circuit

variable {n : Nat}

/-- The linear map by which a directive acts on the wave of a circuit of which the
first `arity` wires are the inputs. -/
noncomputable def act
    (arity : Nat)
    (bits : Qubit → Bool)
    (directive : Directive ℝ)
    (wave : Wave n) : Wave n :=
  match directive with
  | .allocate _ => wave
  | .cz first second =>
      wave.controlledZAt (first.qubit arity) (second.qubit arity)
  | .j angle source target =>
      (wave.gateAt (source.qubit arity) (.rotation angle)).renameAt
        (source.qubit arity) (target.qubit arity)
  | .measure angle wire =>
      wave.gateAt (wire.qubit arity) <| .projector <|
        equatorialKet angle (bits (wire.qubit arity))

/-- The wave after some directives, without any normalization. -/
noncomputable def follow
    (arity : Nat)
    (bits : Qubit → Bool)
    (directives : List (Directive ℝ))
    (wave : Wave n) : Wave n :=
  directives.foldl (fun current directive => act arity bits directive current) wave

@[simp] theorem follow_nil
    (arity : Nat)
    (bits : Qubit → Bool)
    (wave : Wave n) :
    follow arity bits [] wave = wave := rfl

@[simp] theorem follow_cons
    (arity : Nat)
    (bits : Qubit → Bool)
    (directive : Directive ℝ)
    (rest : List (Directive ℝ))
    (wave : Wave n) :
    follow arity bits (directive :: rest) wave =
      follow arity bits rest (act arity bits directive wave) := rfl

/-- The conditional probabilities of the readouts: the squared norm after the
projection divided by the one before. -/
noncomputable def conditionals
    (arity : Nat)
    (bits : Qubit → Bool) : List (Directive ℝ) → Wave n → List ℝ
  | [], _ => []
  | .measure angle wire :: rest, wave =>
      let next := act arity bits (.measure angle wire) wave
      next.normSq / wave.normSq :: conditionals arity bits rest next
  | directive :: rest, wave =>
      conditionals arity bits rest (act arity bits directive wave)

theorem conditionals_cons
    (arity : Nat)
    (bits : Qubit → Bool)
    (directive : Directive ℝ)
    (rest : List (Directive ℝ))
    (wave : Wave n) :
    conditionals arity bits (directive :: rest) wave =
      conditionals arity bits [directive] wave ++
        conditionals arity bits rest (act arity bits directive wave) := by
  cases directive <;> rfl

/-- Bits for which every readout has a conditional probability above the floor. -/
def Kept
    (arity : Nat)
    (bits : Qubit → Bool)
    (directives : List (Directive ℝ))
    (wave : Wave n) : Prop :=
  ∀ probability ∈ conditionals arity bits directives wave,
    Scalar.probabilityFloor < probability

theorem kept_nil
    (arity : Nat)
    (bits : Qubit → Bool)
    (wave : Wave n) :
    Kept arity bits [] wave := by
  intro probability member
  cases member

theorem kept_cons
    (arity : Nat)
    (bits : Qubit → Bool)
    (directive : Directive ℝ)
    (rest : List (Directive ℝ))
    (wave : Wave n) :
    Kept arity bits (directive :: rest) wave ↔
      Kept arity bits [directive] wave ∧
        Kept arity bits rest (act arity bits directive wave) := by
  rw [Kept, conditionals_cons]
  simp only [List.mem_append, or_imp, forall_and]
  rfl

theorem kept_measure
    (arity : Nat)
    (bits : Qubit → Bool)
    (angle : ℝ)
    (wire : Wire)
    (wave : Wave n) :
    Kept arity bits [.measure angle wire] wave ↔
      Scalar.probabilityFloor <
        (act arity bits (.measure angle wire) wave).normSq / wave.normSq :=
  List.forall_mem_singleton

/-- Only readouts change the norm and have conditional probabilities. -/
theorem normSq_act
    (arity : Nat)
    (bits : Qubit → Bool)
    {directive : Directive ℝ}
    (noReadout : directive.readouts = [])
    (wave : Wave n) :
    (act arity bits directive wave).normSq = wave.normSq ∧
      Kept arity bits [directive] wave := by
  cases directive with
  | allocate count => exact ⟨rfl, kept_nil arity bits wave⟩
  | cz first second =>
      exact ⟨Wave.normSq_controlledZAt _ _ wave, kept_nil arity bits wave⟩
  | j angle source target =>
      refine ⟨?_, kept_nil arity bits wave⟩
      rw [act, Wave.normSq_renameAt,
        Wave.normSq_gateAt_of_unitary _ (GateMatrix.rotation_unitary angle)]
  | measure angle wire => cases noReadout

/-- A kept readout does not make the wave vanish. -/
theorem Kept.normSq_act_pos
    {arity : Nat}
    {bits : Qubit → Bool}
    {directive : Directive ℝ}
    {wave : Wave n}
    (kept : Kept arity bits [directive] wave)
    (positive : 0 < wave.normSq) :
    0 < (act arity bits directive wave).normSq := by
  by_cases noReadout : directive.readouts = []
  · rw [(normSq_act arity bits noReadout wave).1]
    exact positive
  · cases directive with
    | measure angle wire =>
        have ratio := (kept_measure arity bits angle wire wave).1 kept
        have above := Scalar.probabilityFloor_pos.trans ratio
        exact (div_pos_iff_of_pos_right positive).1 above
    | _ => exact absurd rfl noReadout

end Circuit

namespace Template

/-- Every output of a rotation is an ancilla that no earlier directive mentions. -/
structure OutputsFresh
    {R : Type}
    (template : Template R) : Prop where
  /-- The outputs are ancillas. -/
  isAncilla : ∀ directive ∈ template.directives, ∀ output ∈ directive.outputs,
    ∃ index, output = .ancilla index
  /-- No earlier directive mentions an output. -/
  notMem_wires : template.directives.Pairwise fun earlier later =>
    ∀ output ∈ later.outputs, output ∉ earlier.wires

/-- The qubits of the outputs of rotations. -/
def outputQubits
    {R : Type}
    (template : Template R) : List Qubit :=
  (template.directives.flatMap Directive.outputs).map
    (Wire.qubit template.inputs.length)

/-- The qubits that are read out. -/
def readoutQubits
    {R : Type}
    (template : Template R) : List Qubit :=
  (template.directives.flatMap Directive.readouts).map
    (Wire.qubit template.inputs.length)

/-- The number of rotations. -/
def rotations
    {R : Type}
    (template : Template R) : Nat :=
  (template.directives.flatMap Directive.outputs).length

/-- The state in which the pattern of a template prepares a qubit: inputs in their
states and ancillas in the equal superposition. -/
noncomputable def patternKet
    (template : Template ℝ)
    (qubit : Qubit) : Bool → ℂ :=
  ((template.inputs[qubit]?).getD .plus).state

/-- The state in which the circuit of a template starts: the same, except that the
outputs of rotations are blank. -/
noncomputable def circuitKet
    (template : Template ℝ)
    (qubit : Qubit) : Bool → ℂ :=
  if qubit ∈ template.outputQubits then Ket.zero.state
  else template.patternKet qubit

theorem isUnitKet_patternKet
    (template : Template ℝ)
    (qubit : Qubit) :
    IsUnitKet (template.patternKet qubit) :=
  Ket.isUnitKet_state _

theorem isUnitKet_circuitKet
    (template : Template ℝ)
    (qubit : Qubit) :
    IsUnitKet (template.circuitKet qubit) := by
  unfold circuitKet
  split
  · exact Ket.isUnitKet_state _
  · exact template.isUnitKet_patternKet qubit

/-- The wave with which the circuit starts. -/
noncomputable def circuitStart
    (n : Nat)
    (template : Template ℝ) : Wave n :=
  Wave.product fun qubit => template.circuitKet qubit.val

theorem normSq_circuitStart
    (n : Nat)
    (template : Template ℝ) :
    (template.circuitStart n).normSq = 1 :=
  Wave.normSq_product fun qubit => template.isUnitKet_circuitKet qubit.val

/-- The wave at the end of the circuit, projected onto the given bits of the
readouts. -/
noncomputable def circuitWave
    (n : Nat)
    (template : Template ℝ)
    (bits : Qubit → Bool) : Wave n :=
  Circuit.follow template.inputs.length bits template.directives
    (template.circuitStart n)

/-- Bits of the readouts that the circuit keeps. -/
def CircuitKeeps
    (n : Nat)
    (template : Template ℝ)
    (bits : Qubit → Bool) : Prop :=
  Circuit.Kept template.inputs.length bits template.directives
    (template.circuitStart n)

end Template

end MeasurementCalculus
