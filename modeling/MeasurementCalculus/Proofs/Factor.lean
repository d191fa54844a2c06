import MeasurementCalculus.Proofs.Path

/-!
# Measured qubits factor out

After its measurement a qubit is in a state of its own, which no later command
touches. So a wave at the end of a path is a product of the states of the
measured qubits and of a core that does not depend on their digits. Two waves
agree off some qubits when both factor in this way and their cores differ at
most by a factor of modulus one.
-/

namespace MeasurementCalculus

open scoped ComplexConjugate
open Function (update)

theorem isUnitKet_iff (ket : Bool → ℂ) :
    IsUnitKet ket ↔ star ket ⬝ᵥ ket = 1 := by
  rw [dotProduct, Fintype.sum_bool, add_comm]
  simp only [Pi.star_apply, ← starRingEnd_apply,
    ← Complex.normSq_eq_conj_mul_self]
  rw [← Complex.ofReal_add, Complex.ofReal_eq_one, IsUnitKet]

/-- Unitary matrices keep the norm of a ket. -/
theorem isUnitKet_mulVec
    {matrix : GateMatrix}
    (unitary : matrix.conjTranspose * matrix = 1)
    {ket : Bool → ℂ}
    (unit : IsUnitKet ket) :
    IsUnitKet (matrix.mulVec ket) := by
  rw [isUnitKet_iff] at unit ⊢
  rw [Matrix.star_mulVec, ← Matrix.dotProduct_mulVec, Matrix.mulVec_mulVec,
    unitary, Matrix.one_mulVec, unit]

namespace Wave

variable {n : Nat}

/-! ## Gates on listed qubits -/

/-- A wave that comes from another one by unitary gates on the listed qubits. -/
inductive GatesOn (qubits : List Qubit) : Wave n → Wave n → Prop
  /-- No gate at all. -/
  | refl (wave : Wave n) : GatesOn qubits wave wave
  /-- One more gate. -/
  | gate
      {first second : Wave n}
      {qubit : Qubit}
      {matrix : GateMatrix}
      (member : qubit ∈ qubits)
      (unitary : matrix.conjTranspose * matrix = 1)
      (earlier : GatesOn qubits first second) :
      GatesOn qubits (first.gateAt qubit matrix) second

theorem GatesOn.mono
    {fewer more : List Qubit}
    (inclusion : ∀ qubit ∈ fewer, qubit ∈ more)
    {first second : Wave n}
    (gates : GatesOn fewer first second) :
    GatesOn more first second := by
  induction gates with
  | refl wave => exact .refl wave
  | gate member unitary _ inductionHypothesis =>
      exact .gate (inclusion _ member) unitary inductionHypothesis

theorem GatesOn.normSq_eq
    {qubits : List Qubit}
    {first second : Wave n}
    (gates : GatesOn qubits first second) :
    first.normSq = second.normSq := by
  induction gates with
  | refl wave => rfl
  | gate _ unitary _ inductionHypothesis =>
      rw [normSq_gateAt_of_unitary _ unitary, inductionHypothesis]

/-! ## Products -/

/-- The product of the amplitudes that the listed qubits have in states of their
own. -/
noncomputable def ketProduct
    (qubits : List Qubit)
    (kets : Qubit → Bool → ℂ) : Wave n :=
  fun digits =>
    ∏ qubit : Fin n, if qubit.val ∈ qubits then kets qubit.val (digits qubit) else 1

/-- A wave is the product of states of the listed qubits and of a core that does not
depend on their digits. -/
structure Factors
    (qubits : List Qubit)
    (kets : Qubit → Bool → ℂ)
    (core wave : Wave n) : Prop where
  /-- The states of the listed qubits have norm one. -/
  isUnitKet : ∀ qubit ∈ qubits, IsUnitKet (kets qubit)
  /-- The core does not depend on the digits of the listed qubits. -/
  dependsOn : DependsOn core {qubit | qubit.val ∉ qubits}
  /-- The wave is the product of both. -/
  eq_mul : wave = ketProduct qubits kets * core

theorem core_update
    {core : Wave n}
    {qubits : List Qubit}
    (dependsOn : DependsOn core {qubit | qubit.val ∉ qubits})
    {qubit : Fin n}
    (member : qubit.val ∈ qubits)
    (digits : Fin n → Bool)
    (digit : Bool) :
    core (update digits qubit digit) = core digits := by
  apply dependsOn
  intro other apart
  refine Function.update_of_ne ?_ _ _
  rintro rfl
  exact apart member

theorem core_update_congr
    {core : Wave n}
    {qubits : List Qubit}
    (dependsOn : DependsOn core {qubit | qubit.val ∉ qubits})
    {first second : Fin n → Bool}
    {qubit : Fin n}
    (agree : ∀ other, other ≠ qubit → other.val ∉ qubits →
      first other = second other)
    (digit : Bool) :
    core (update first qubit digit) = core (update second qubit digit) := by
  apply dependsOn
  intro other unlisted
  by_cases same : other = qubit
  · rw [same, Function.update_self, Function.update_self]
  · rw [Function.update_of_ne same, Function.update_of_ne same]
    exact agree other same unlisted

/-- The overlap of one qubit with a ket, as a wave that does not depend on the digit
of this qubit. -/
def overlap
    (qubit : Fin n)
    (ket : Bool → ℂ)
    (wave : Wave n) : Wave n :=
  fun digits =>
    conj (ket true) * wave (update digits qubit true) +
      conj (ket false) * wave (update digits qubit false)

theorem overlap_smul
    (qubit : Fin n)
    (ket : Bool → ℂ)
    (factor : ℂ)
    (wave : Wave n) :
    overlap qubit ket (factor • wave) = factor • overlap qubit ket wave := by
  funext digits
  simp only [overlap, Pi.smul_apply, smul_eq_mul]
  ring

/-- A projection of a qubit is the product of the state onto which it projects and of the
overlap with it. -/
theorem gate_projector_apply
    (qubit : Fin n)
    (ket : Bool → ℂ)
    (wave : Wave n)
    (digits : Fin n → Bool) :
    gate qubit (.projector ket) wave digits =
      ket (digits qubit) * overlap qubit ket wave digits := by
  rw [gate_apply, overlap, GateMatrix.projector_apply, GateMatrix.projector_apply]
  ring

/-- The digit of an unlisted qubit does not matter to the product. -/
theorem ketProduct_update_of_notMem
    {qubits : List Qubit}
    (kets : Qubit → Bool → ℂ)
    {qubit : Fin n}
    (apart : qubit.val ∉ qubits)
    (digits : Fin n → Bool)
    (digit : Bool) :
    ketProduct qubits kets (update digits qubit digit) =
      ketProduct qubits kets digits := by
  refine Finset.prod_congr rfl fun other _ => ?_
  by_cases same : other = qubit
  · rw [same, if_neg apart, if_neg apart]
  · rw [Function.update_of_ne same]

/-- The factor of one listed qubit in the product. -/
theorem ketProduct_update
    {qubits : List Qubit}
    (kets : Qubit → Bool → ℂ)
    (ket : Bool → ℂ)
    {qubit : Fin n}
    (member : qubit.val ∈ qubits)
    (digits : Fin n → Bool)
    (digit : Bool) :
    ketProduct qubits (update kets qubit.val ket) (update digits qubit digit) =
      ket digit *
        ∏ other ∈ Finset.univ.erase qubit,
          if other.val ∈ qubits then kets other.val (digits other) else 1 := by
  unfold ketProduct
  rw [← Finset.mul_prod_erase _ _ (Finset.mem_univ qubit), if_pos member,
    Function.update_self, Function.update_self]
  congr 1
  refine Finset.prod_congr rfl fun other inside => ?_
  have different := Finset.ne_of_mem_erase inside
  rw [Function.update_of_ne different,
    Function.update_of_ne fun same => different (Fin.val_injective same)]

/-- One more qubit in the product. -/
theorem ketProduct_append
    {qubits : List Qubit}
    (kets : Qubit → Bool → ℂ)
    (ket : Bool → ℂ)
    {qubit : Fin n}
    (apart : qubit.val ∉ qubits)
    (digits : Fin n → Bool) :
    ketProduct (qubits ++ [qubit.val]) (update kets qubit.val ket) digits =
      ket (digits qubit) * ketProduct qubits kets digits := by
  have extended := ketProduct_update kets ket
    (List.mem_append_right qubits (List.mem_singleton_self qubit.val)) digits
    (digits qubit)
  rw [Function.update_eq_self] at extended
  rw [extended, ketProduct, ← Finset.mul_prod_erase _ _ (Finset.mem_univ qubit),
    if_neg apart, one_mul]
  congr 1
  refine Finset.prod_congr rfl fun other inside => ?_
  have different : other.val ≠ qubit.val := fun same =>
    Finset.ne_of_mem_erase inside (Fin.val_injective same)
  simp [different]

namespace Factors

variable {qubits : List Qubit} {kets : Qubit → Bool → ℂ} {core wave : Wave n}

/-- A unitary gate on a listed qubit changes the state of this qubit alone. -/
theorem gate_of_mem
    (factors : Factors qubits kets core wave)
    {qubit : Fin n}
    (member : qubit.val ∈ qubits)
    {matrix : GateMatrix}
    (unitary : matrix.conjTranspose * matrix = 1) :
    Factors qubits (update kets qubit.val (matrix.mulVec (kets qubit.val))) core
      (wave.gate qubit matrix) where
  isUnitKet := by
    intro other listed
    by_cases same : other = qubit.val
    · rw [same, Function.update_self]
      exact isUnitKet_mulVec unitary (factors.isUnitKet _ member)
    · rw [Function.update_of_ne same]
      exact factors.isUnitKet other listed
  dependsOn := factors.dependsOn
  eq_mul := by
    funext digits
    have factor (ket : Bool → ℂ) := ketProduct_update kets ket member digits
    have here := factor (kets qubit.val)
    have there := factor (matrix.mulVec (kets qubit.val)) (digits qubit)
    rw [Function.update_eq_self] at here there
    rw [gate_apply, factors.eq_mul, Pi.mul_apply, Pi.mul_apply, Pi.mul_apply,
      core_update factors.dependsOn member, core_update factors.dependsOn member,
      here, here, there]
    simp only [Matrix.mulVec, dotProduct, Fintype.sum_bool]
    ring

/-- A gate on another qubit acts on the core. -/
theorem gate_of_notMem
    (factors : Factors qubits kets core wave)
    {qubit : Fin n}
    (apart : qubit.val ∉ qubits)
    (matrix : GateMatrix) :
    Factors qubits kets (core.gate qubit matrix) (wave.gate qubit matrix) where
  isUnitKet := factors.isUnitKet
  dependsOn := by
    intro first second agree
    have same (digit : Bool) :
        core (update first qubit digit) = core (update second qubit digit) :=
      core_update_congr factors.dependsOn (fun other _ => agree other) digit
    rw [gate_apply, gate_apply, agree qubit apart, same, same]
  eq_mul := by
    funext digits
    simp only [gate_apply, factors.eq_mul, Pi.mul_apply,
      ketProduct_update_of_notMem kets apart]
    ring

/-- A controlled-Z of other qubits acts on the core. -/
theorem controlledZ_of_notMem
    (factors : Factors qubits kets core wave)
    {first second : Fin n}
    (firstApart : first.val ∉ qubits)
    (secondApart : second.val ∉ qubits) :
    Factors qubits kets (core.controlledZ first second)
      (wave.controlledZ first second) where
  isUnitKet := factors.isUnitKet
  dependsOn := by
    intro one other agree
    rw [controlledZ_apply, controlledZ_apply, agree first firstApart,
      agree second secondApart, factors.dependsOn agree]
  eq_mul := by
    funext digits
    simp only [controlledZ_apply, factors.eq_mul, Pi.mul_apply]
    split
    · ring
    · rfl

/-- A core that is itself the product of a state of one more qubit and of a smaller
core. -/
theorem absorb
    (factors : Factors qubits kets core wave)
    {qubit : Fin n}
    (apart : qubit.val ∉ qubits)
    {ket : Bool → ℂ}
    (unit : IsUnitKet ket)
    {smaller : Wave n}
    (dependsOn : DependsOn smaller {other | other.val ∉ qubits ++ [qubit.val]})
    (splits : ∀ digits, core digits = ket (digits qubit) * smaller digits) :
    Factors (qubits ++ [qubit.val]) (update kets qubit.val ket) smaller wave where
  isUnitKet := by
    intro other listed
    by_cases same : other = qubit.val
    · rw [same, Function.update_self]
      exact unit
    · rw [Function.update_of_ne same]
      exact factors.isUnitKet other (by simpa [same] using listed)
  dependsOn := dependsOn
  eq_mul := by
    funext digits
    rw [factors.eq_mul, Pi.mul_apply, Pi.mul_apply, splits,
      ketProduct_append kets ket apart]
    ring

/-- A projection of another qubit lists this qubit in the state onto which it is
projected. -/
theorem project
    (factors : Factors qubits kets core wave)
    {qubit : Fin n}
    (apart : qubit.val ∉ qubits)
    {ket : Bool → ℂ}
    (unit : IsUnitKet ket) :
    Factors (qubits ++ [qubit.val]) (update kets qubit.val ket)
      (core.overlap qubit ket) (wave.gate qubit (.projector ket)) := by
  refine (factors.gate_of_notMem apart _).absorb apart unit ?_ ?_
  · intro first second agree
    have same (digit : Bool) :
        core (update first qubit digit) = core (update second qubit digit) := by
      refine core_update_congr factors.dependsOn ?_ digit
      intro other different unlisted
      refine agree other fun listed => ?_
      rcases List.mem_append.1 listed with earlier | single
      · exact unlisted earlier
      · exact different (Fin.val_injective (List.mem_singleton.1 single))
    rw [overlap, overlap, same, same]
  · exact gate_projector_apply qubit ket core

theorem smul
    (factors : Factors qubits kets core wave)
    (factor : ℂ) :
    Factors qubits kets (factor • core) (factor • wave) where
  isUnitKet := factors.isUnitKet
  dependsOn := by
    intro first second agree
    rw [Pi.smul_apply, Pi.smul_apply, factors.dependsOn agree]
  eq_mul := by
    rw [factors.eq_mul, mul_smul_comm]

theorem congr_core
    (factors : Factors qubits kets core wave)
    {other : Wave n}
    (same : core = other) :
    Factors qubits kets other wave :=
  same ▸ factors

/-- Only the members of the list matter. -/
theorem congr_mem
    (factors : Factors qubits kets core wave)
    {others : List Qubit}
    (same : ∀ qubit, qubit ∈ qubits ↔ qubit ∈ others) :
    Factors others kets core wave where
  isUnitKet := fun qubit listed => factors.isUnitKet qubit ((same qubit).2 listed)
  dependsOn := by
    simpa only [same] using factors.dependsOn
  eq_mul := by
    rw [factors.eq_mul]
    unfold ketProduct
    simp only [same]

/-- The state of a listed qubit can be moved into the core. -/
theorem release
    {qubit : Fin n}
    {fewer : List Qubit}
    (factors : Factors (fewer ++ [qubit.val]) kets core wave)
    (apart : qubit.val ∉ fewer) :
    Factors fewer kets
      (fun digits => kets qubit.val (digits qubit) * core digits) wave where
  isUnitKet := fun other listed =>
    factors.isUnitKet other (List.mem_append_left _ listed)
  dependsOn := by
    intro first second agree
    have same : core first = core second := by
      apply factors.dependsOn
      exact fun other unlisted =>
        agree other fun listed => unlisted (List.mem_append_left _ listed)
    simp only [same, agree qubit apart]
  eq_mul := by
    funext digits
    have split := ketProduct_append kets (kets qubit.val) apart digits
    rw [Function.update_eq_self] at split
    rw [factors.eq_mul, Pi.mul_apply, Pi.mul_apply, split]
    ring

/-- A legal command on a wave of which the measured qubits factor out. -/
theorem act
    (factors : Factors qubits kets core wave)
    (bits : Qubit → Bool)
    {command : Command ℝ}
    (legal : command.Legal n qubits) :
    ∃ nextKets nextCore,
      Factors (command.measuredAfter qubits) nextKets nextCore
        (wave.act bits command) := by
  cases command with
  | entangle first second =>
      obtain ⟨firstInside, firstApart⟩ := legal.entangle_first
      obtain ⟨secondInside, secondApart⟩ := legal.entangle_second
      lift first to Fin n using firstInside
      lift second to Fin n using secondInside
      rw [Command.measuredAfter_of_none rfl, Wave.act, controlledZAt_val]
      exact ⟨_, _, factors.controlledZ_of_notMem firstApart secondApart⟩
  | measure qubit angle s t =>
      have inside := legal.target_lt qubit (by simp)
      have apart := legal.target_notMem qubit (by simp)
      lift qubit to Fin n using inside
      rw [Command.measuredAfter_measure, Wave.act, gateAt_val]
      exact ⟨_, _, factors.project apart (isUnitKet_equatorialKet _ _)⟩
  | correctX qubit signals =>
      have inside := legal.target_lt qubit (by simp)
      have apart := legal.target_notMem qubit (by simp)
      lift qubit to Fin n using inside
      rw [Command.measuredAfter_of_none rfl, Wave.act, gateAt_val]
      exact ⟨_, _, factors.gate_of_notMem apart _⟩
  | correctZ qubit signals =>
      have inside := legal.target_lt qubit (by simp)
      have apart := legal.target_notMem qubit (by simp)
      lift qubit to Fin n using inside
      rw [Command.measuredAfter_of_none rfl, Wave.act, gateAt_val]
      exact ⟨_, _, factors.gate_of_notMem apart _⟩

/-- At the end of a path every measured qubit factors out. -/
theorem follow
    (factors : Factors qubits kets core wave)
    (bits : Qubit → Bool)
    {commands : List (Command ℝ)}
    (legal : Command.AllLegal n qubits commands) :
    ∃ lastKets lastCore,
      Factors (qubits ++ Command.measuredBy commands) lastKets lastCore
        (wave.follow bits commands) := by
  induction commands generalizing qubits kets core wave with
  | nil =>
      rw [Command.measuredBy_nil, List.append_nil]
      exact ⟨kets, core, factors⟩
  | cons command rest inductionHypothesis =>
      obtain ⟨head, tail⟩ := legal
      obtain ⟨nextKets, nextCore, next⟩ := factors.act bits head
      rw [Command.measuredBy_cons, ← List.append_assoc]
      exact inductionHypothesis next tail

/-- Unitary gates on listed qubits leave the core as it is. -/
theorem gatesOn
    (factors : Factors qubits kets core wave)
    {other : Wave n}
    (gates : GatesOn qubits other wave) :
    ∃ otherKets, Factors qubits otherKets core other := by
  induction gates with
  | refl wave => exact ⟨kets, factors⟩
  | @gate first second qubit matrix member unitary _ inductionHypothesis =>
      obtain ⟨earlierKets, earlier⟩ := inductionHypothesis factors
      by_cases inside : qubit < n
      · lift qubit to Fin n using inside
        rw [gateAt_val]
        exact ⟨_, earlier.gate_of_mem member unitary⟩
      · rw [gateAt, dif_neg inside]
        exact ⟨earlierKets, earlier⟩

end Factors

/-! ## Norms -/

/-- Flipping the digit of a qubit. -/
def flipDigit (qubit : Fin n) : (Fin n → Bool) ≃ (Fin n → Bool) where
  toFun digits := update digits qubit (!digits qubit)
  invFun digits := update digits qubit (!digits qubit)
  left_inv digits := by simp
  right_inv digits := by simp

/-- In a sum over all assignments, a weight of the digit of one qubit can be replaced
by its mean, if nothing else depends on this digit. -/
theorem sum_weight_mul
    (qubit : Fin n)
    (weight : Bool → ℝ)
    (term : (Fin n → Bool) → ℝ)
    (independent : ∀ digits, term (flipDigit qubit digits) = term digits) :
    2 * ∑ digits, weight (digits qubit) * term digits =
      (weight false + weight true) * ∑ digits, term digits := by
  have flipped : ∑ digits, weight (digits qubit) * term digits =
      ∑ digits, weight (!digits qubit) * term digits := by
    rw [← (flipDigit qubit).sum_comp]
    refine Finset.sum_congr rfl fun digits _ => ?_
    rw [independent]
    simp [flipDigit]
  rw [two_mul]
  nth_rewrite 2 [flipped]
  rw [← Finset.sum_add_distrib, Finset.mul_sum]
  refine Finset.sum_congr rfl fun digits _ => ?_
  cases digits qubit
  · rw [Bool.not_false]
    ring
  · rw [Bool.not_true]
    ring

theorem ketProduct_congr
    {qubits : List Qubit}
    {first second : Qubit → Bool → ℂ}
    (agree : ∀ qubit ∈ qubits, qubit < n → first qubit = second qubit) :
    (ketProduct qubits first : Wave n) = ketProduct qubits second := by
  funext digits
  refine Finset.prod_congr rfl fun qubit _ => ?_
  split
  · next member => rw [agree qubit.val member qubit.isLt]
  · rfl

/-- The norm of a product does not depend on the state of a listed qubit. -/
theorem normSq_ketProduct_update
    {qubits : List Qubit}
    {core : Wave n}
    (dependsOn : DependsOn core {qubit | qubit.val ∉ qubits})
    {kets : Qubit → Bool → ℂ}
    {qubit : Fin n}
    (member : qubit.val ∈ qubits)
    (unitOld : IsUnitKet (kets qubit.val))
    {ket : Bool → ℂ}
    (unitNew : IsUnitKet ket) :
    (ketProduct qubits (update kets qubit.val ket) * core).normSq =
      (ketProduct qubits kets * core).normSq := by
  let others (digits : Fin n → Bool) : ℂ :=
    (∏ other ∈ Finset.univ.erase qubit,
      if other.val ∈ qubits then kets other.val (digits other) else 1) *
        core digits
  have independent (digits : Fin n → Bool) :
      Complex.normSq (others (flipDigit qubit digits)) =
        Complex.normSq (others digits) := by
    congr 1
    change _ * core (update digits qubit _) = _
    rw [core_update dependsOn member]
    congr 1
    refine Finset.prod_congr rfl fun other inside => ?_
    rw [flipDigit, Equiv.coe_fn_mk,
      Function.update_of_ne (Finset.ne_of_mem_erase inside)]
  have norm {any : Bool → ℂ} (unit : IsUnitKet any) :
      2 * (ketProduct qubits (update kets qubit.val any) * core).normSq =
        ∑ digits, Complex.normSq (others digits) := by
    have weighted := sum_weight_mul qubit (fun digit => Complex.normSq (any digit))
      (fun digits => Complex.normSq (others digits)) independent
    rw [unit, one_mul] at weighted
    rw [← weighted, Wave.normSq]
    congr 1
    refine Finset.sum_congr rfl fun digits _ => ?_
    have factor := ketProduct_update kets any member digits (digits qubit)
    rw [Function.update_eq_self] at factor
    rw [Pi.mul_apply, factor, mul_assoc, Complex.normSq_mul]
  have new := norm unitNew
  have old := norm unitOld
  rw [Function.update_eq_self, ← new] at old
  linarith

/-- The norm of a product does not depend on the states of the listed qubits. -/
theorem normSq_ketProduct
    {qubits : List Qubit}
    {core : Wave n}
    (dependsOn : DependsOn core {qubit | qubit.val ∉ qubits})
    {first second : Qubit → Bool → ℂ}
    (firstUnit : ∀ qubit ∈ qubits, IsUnitKet (first qubit))
    (secondUnit : ∀ qubit ∈ qubits, IsUnitKet (second qubit)) :
    (ketProduct qubits first * core).normSq =
      (ketProduct qubits second * core).normSq := by
  -- The states are exchanged one after another, for ever more qubits.
  have exchanged (some : List Qubit) :
      (ketProduct qubits (fun qubit =>
        if qubit ∈ some then first qubit else second qubit) * core).normSq =
          (ketProduct qubits second * core).normSq := by
    induction some with
    | nil => simp
    | cons head tail inductionHypothesis =>
        rw [← inductionHypothesis]
        have extended : (fun qubit =>
              if qubit ∈ head :: tail then first qubit else second qubit) =
            update (fun qubit =>
              if qubit ∈ tail then first qubit else second qubit)
                head (first head) := by
          funext qubit
          by_cases same : qubit = head
          · simp [same]
          · simp [same]
        rw [extended]
        by_cases inside : head < n ∧ head ∈ qubits
        · obtain ⟨below, member⟩ := inside
          lift head to Fin n using below
          refine normSq_ketProduct_update dependsOn member ?_
            (firstUnit _ member)
          split
          · exact firstUnit _ member
          · exact secondUnit _ member
        · congr 2
          apply ketProduct_congr
          intro qubit member below
          apply Function.update_of_ne
          rintro rfl
          exact inside ⟨below, member⟩
  rw [← exchanged qubits]
  congr 2
  apply ketProduct_congr
  intro qubit member _
  rw [if_pos member]

/-- The norm of a wave is that of its core, whatever the states of the listed qubits
are. -/
theorem Factors.normSq_eq
    {qubits : List Qubit}
    {firstKets secondKets : Qubit → Bool → ℂ}
    {core first second : Wave n}
    {factor : ℂ}
    (firstFactors : Factors qubits firstKets core first)
    (secondFactors : Factors qubits secondKets (factor • core) second) :
    second.normSq = Complex.normSq factor * first.normSq := by
  rw [secondFactors.eq_mul, firstFactors.eq_mul, mul_smul_comm, normSq_smul,
    normSq_ketProduct firstFactors.dependsOn secondFactors.isUnitKet
      firstFactors.isUnitKet]

/-- Every wave factors trivially. -/
theorem factors_nil (wave : Wave n) :
    Factors [] (fun _ _ => 0) wave wave where
  isUnitKet := fun _ listed => absurd listed List.not_mem_nil
  dependsOn := by
    intro first second agree
    rw [funext fun qubit => agree qubit List.not_mem_nil]
  eq_mul := by
    funext digits
    simp [ketProduct]

/-- A product of states factors at every qubit. -/
theorem factors_product
    {qubits : List Qubit}
    {kets : Qubit → Bool → ℂ}
    (unit : ∀ qubit ∈ qubits, IsUnitKet (kets qubit)) :
    Factors qubits kets
      (product fun qubit : Fin n =>
        if qubit.val ∈ qubits then 1 else kets qubit.val)
      (product fun qubit : Fin n => kets qubit.val) where
  isUnitKet := unit
  dependsOn := by
    intro first second agree
    refine Finset.prod_congr rfl fun qubit _ => ?_
    dsimp only
    split
    · rfl
    · next unlisted => rw [agree qubit unlisted]
  eq_mul := by
    funext digits
    rw [Pi.mul_apply, ketProduct, product, product, ← Finset.prod_mul_distrib]
    refine Finset.prod_congr rfl fun qubit _ => ?_
    split
    · exact (mul_one _).symm
    · exact (one_mul _).symm

/-! ## Agreement off listed qubits -/

/-- Two waves that describe the same state of all qubits except the listed ones:
in both the listed qubits factor out, and the rest is the same up to a factor of
modulus one. -/
def AgreeOff
    (qubits : List Qubit)
    (first second : Wave n) : Prop :=
  ∃ (firstKets secondKets : Qubit → Bool → ℂ) (core : Wave n) (phase : ℂ),
    ‖phase‖ = 1 ∧
    Factors qubits firstKets core first ∧
    Factors qubits secondKets (phase • core) second

theorem AgreeOff.smul
    {qubits : List Qubit}
    {first second : Wave n}
    (agree : AgreeOff qubits first second)
    (factor : ℂ) :
    AgreeOff qubits (factor • first) (factor • second) := by
  obtain ⟨firstKets, secondKets, core, phase, unit, firstFactors, secondFactors⟩ :=
    agree
  refine ⟨firstKets, secondKets, factor • core, phase, unit,
    firstFactors.smul factor, ?_⟩
  rw [smul_comm]
  exact secondFactors.smul factor

/-- Waves that differ by unitary gates on listed qubits agree off these qubits, if
the qubits factor out. -/
theorem Factors.agreeOff
    {qubits : List Qubit}
    {kets : Qubit → Bool → ℂ}
    {core second : Wave n}
    (factors : Factors qubits kets core second)
    {first : Wave n}
    (gates : GatesOn qubits first second) :
    AgreeOff qubits first second := by
  obtain ⟨firstKets, firstFactors⟩ := factors.gatesOn gates
  refine ⟨firstKets, kets, core, 1, norm_one, firstFactors, ?_⟩
  rw [one_smul]
  exact factors

end Wave

end MeasurementCalculus
