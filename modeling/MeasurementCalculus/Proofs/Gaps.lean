import MeasurementCalculus.Proofs.Breaches

/-!
# Repairing gaps

A pattern whose numbering has a gap is reported together with the missing
numbers: those below the largest prepared qubit that are not prepared
themselves. Preparing ancillas with these numbers closes the gap. The report
then loses the gap and the commands that act on a new qubit without a
preparation, and nothing else in it changes.
-/

namespace MeasurementCalculus

variable {R : Type}

namespace Violation

/-- A command acts on one of the given qubits, which is not prepared. -/
def Misses
    (violation : Violation R)
    (qubits : List Qubit) : Prop :=
  violation.condition = .preparedTarget ∧ ∃ qubit ∈ qubits, violation.qubits = [qubit]

instance
    (violation : Violation R)
    (qubits : List Qubit) : Decidable (violation.Misses qubits) :=
  inferInstanceAs (Decidable (_ ∧ _))

theorem misses_unpreparedTarget_iff
    {index : Nat}
    {command : Command R}
    {target : Qubit}
    {qubits : List Qubit} :
    (unpreparedTarget index command target).Misses qubits ↔ target ∈ qubits := by
  simp [Misses, unpreparedTarget]

theorem not_misses
    {violation : Violation R}
    (other : violation.condition ≠ .preparedTarget)
    (qubits : List Qubit) : ¬violation.Misses qubits :=
  fun misses => other misses.1

end Violation

namespace Pattern

/-! ## The parts of a report -/

/-- The breaches of all declarations, in their order. -/
def allDeclarationBreaches (pattern : Pattern R) : List (Violation R) :=
  pattern.declared.zipIdx.flatMap fun ((qubit, _), place) =>
    pattern.declarationBreaches place qubit

/-- The breaches of all commands, in program order. -/
def allCommandBreaches (pattern : Pattern R) : List (Violation R) :=
  pattern.commands.zipIdx.flatMap fun (command, index) =>
    pattern.commandBreaches index command

theorem breaches_eq (pattern : Pattern R) :
    pattern.breaches = pattern.allDeclarationBreaches ++ pattern.allCommandBreaches ++
      pattern.numberingBreaches := rfl

theorem condition_of_mem_allDeclarationBreaches
    {pattern : Pattern R}
    {breach : Violation R}
    (member : breach ∈ pattern.allDeclarationBreaches) :
    breach.condition = .singlePreparation := by
  obtain ⟨⟨⟨qubit, _⟩, place⟩, _, reported⟩ := List.mem_flatMap.1 member
  simp only [declarationBreaches] at reported
  split at reported
  · rw [List.mem_singleton.1 reported]
    rfl
  · cases reported

/-- Commands do not breach the numbering. -/
theorem condition_ne_of_mem_allCommandBreaches
    {pattern : Pattern R}
    {breach : Violation R}
    (member : breach ∈ pattern.allCommandBreaches) :
    breach.condition ≠ .contiguous := by
  obtain ⟨⟨command, index⟩, _, reported⟩ := List.mem_flatMap.1 member
  simp only [commandBreaches, List.mem_append, List.mem_flatMap] at reported
  rcases reported with (paired | ⟨target, _, unprepared | measured⟩) | ⟨signal, _, unread⟩
  · split at paired
    · split at paired
      · rw [List.mem_singleton.1 paired]
        nofun
      · cases paired
    · cases paired
  · split at unprepared
    · cases unprepared
    · rw [List.mem_singleton.1 unprepared]
      nofun
  · split at measured
    · rw [List.mem_singleton.1 measured]
      nofun
    · cases measured
  · split at unread
    · cases unread
    · rw [List.mem_singleton.1 unread]
      nofun

/-! ## Preparing more ancillas -/

section Prepare

variable {pattern : Pattern R} {added : List Qubit}

theorem map_fst_declared_prepare :
    (pattern.prepare (.ancillas added)).declared.map Prod.fst =
      pattern.declared.map Prod.fst ++ added := by
  simp [declared, prepare, Function.comp_def]

theorem declaredQubits_prepare :
    (pattern.prepare (.ancillas added)).declaredQubits =
      pattern.declaredQubits ∪ added.toFinset := by
  unfold declaredQubits
  rw [map_fst_declared_prepare, List.toFinset_append]

/-- New declarations do not change what is declared before the earlier ones. -/
theorem declaresBefore_prepare_iff
    {place : Nat}
    (inside : place ≤ pattern.declared.length)
    (qubit : Qubit) :
    (pattern.prepare (.ancillas added)).DeclaresBefore place qubit ↔
      pattern.DeclaresBefore place qubit := by
  rw [← mem_take_declared_iff, ← mem_take_declared_iff, map_fst_declared_prepare,
    List.take_append_of_le_length (by simpa using inside)]

/-- New declarations of different qubits repeat none. -/
theorem not_declaresBefore_prepare
    (distinct : added.Nodup)
    (fresh : ∀ qubit ∈ added, qubit ∉ pattern.declaredQubits)
    {index : Nat}
    {qubit : Qubit}
    (there : added[index]? = some qubit) :
    ¬(pattern.prepare (.ancillas added)).DeclaresBefore
      (pattern.declared.length + index) qubit := by
  obtain ⟨inside, rfl⟩ := List.getElem?_eq_some_iff.1 there
  have length : (pattern.declared.map Prod.fst).length = pattern.declared.length :=
    List.length_map _
  rw [← mem_take_declared_iff, map_fst_declared_prepare, ← length,
    List.take_length_add_append, List.mem_append]
  rintro (earlier | between)
  · exact fresh _ (List.getElem_mem inside) (mem_declaredQubits.2 earlier)
  · have here : added[index] ∈ added.drop index := by
      rw [List.drop_eq_getElem_cons inside]
      exact List.mem_cons_self
    exact List.disjoint_take_drop distinct le_rfl between here

/-- New declarations of different qubits breach nothing and leave the breaches of the
earlier declarations as they are. -/
theorem allDeclarationBreaches_prepare
    (distinct : added.Nodup)
    (fresh : ∀ qubit ∈ added, qubit ∉ pattern.declaredQubits) :
    (pattern.prepare (.ancillas added)).allDeclarationBreaches =
      pattern.allDeclarationBreaches := by
  have declared : (pattern.prepare (.ancillas added)).declared =
      pattern.declared ++ added.map fun qubit => (qubit, .plus) := by
    simp [Pattern.declared, prepare]
  -- The earlier declarations keep their places, and the new ones stand behind them.
  unfold allDeclarationBreaches
  rw [declared, List.zipIdx_append, List.flatMap_append]
  refine (congrArg₂ _ (List.flatMap_congr ?_) (List.flatMap_eq_nil_iff.2 ?_)).trans
    (List.append_nil _)
  · rintro ⟨⟨qubit, ket⟩, place⟩ member
    obtain ⟨_, inside, _⟩ := List.mem_zipIdx member
    rw [Nat.zero_add] at inside
    simp only [declarationBreaches, declaresBefore_prepare_iff inside.le]
  · rintro ⟨⟨qubit, ket⟩, place⟩ member
    rw [Nat.zero_add, List.mk_mem_zipIdx_iff_le_and_getElem?_sub] at member
    obtain ⟨below, there⟩ := member
    obtain ⟨index, rfl⟩ := Nat.exists_eq_add_of_le below
    rw [Nat.add_sub_cancel_left, List.getElem?_map, Option.map_eq_some_iff] at there
    obtain ⟨_, there, same⟩ := there
    cases same
    exact if_neg (not_declaresBefore_prepare distinct fresh there)

/-- Preparing more qubits settles the breaches of commands that act on them, and no
others. -/
theorem commandBreaches_prepare
    (index : Nat)
    (command : Command R) :
    (pattern.prepare (.ancillas added)).commandBreaches index command =
      (pattern.commandBreaches index command).filter fun breach =>
        ¬breach.Misses added := by
  have prepared (target : Qubit) :
      target ∈ (pattern.prepare (.ancillas added)).declaredQubits ↔
        target ∈ pattern.declaredQubits ∨ target ∈ added := by
    rw [declaredQubits_prepare, Finset.mem_union, List.mem_toFinset]
  have measured (qubit : Qubit) :
      (pattern.prepare (.ancillas added)).MeasuresBefore index qubit ↔
        pattern.MeasuresBefore index qubit := Iff.rfl
  unfold commandBreaches
  simp only [List.filter_append, List.filter_flatMap, prepared, measured]
  refine congrArg₂ _ (congrArg₂ _ ?_ (List.flatMap_congr fun target _ =>
    congrArg₂ _ ?_ ?_)) (List.flatMap_congr fun signal _ => ?_)
  · cases command with
    | entangle first second =>
        by_cases same : first = second
        · simp [same, Violation.not_misses, Violation.selfEntanglement]
        · simp [same]
    | measure qubit angle s t => rfl
    | correctX qubit signals => rfl
    | correctZ qubit signals => rfl
  · by_cases declared : target ∈ pattern.declaredQubits
    · simp [declared]
    · by_cases new : target ∈ added
      · simp [declared, new, Violation.misses_unpreparedTarget_iff]
      · simp [declared, new, Violation.misses_unpreparedTarget_iff]
  · by_cases done : pattern.MeasuresBefore index target
    · simp [done, Violation.not_misses, Violation.measuredTarget]
    · simp [done]
  · by_cases done : pattern.MeasuresBefore index signal
    · simp [done]
    · simp [done, Violation.not_misses, Violation.unmeasuredSignal]

theorem allCommandBreaches_prepare :
    (pattern.prepare (.ancillas added)).allCommandBreaches =
      pattern.allCommandBreaches.filter fun breach => ¬breach.Misses added := by
  unfold allCommandBreaches
  rw [List.filter_flatMap]
  exact List.flatMap_congr fun entry _ => commandBreaches_prepare entry.2 entry.1

end Prepare

/-! ## Preparing the missing qubits -/

section Numbering

variable {pattern : Pattern R}

theorem mem_gaps_iff {qubit : Qubit} :
    qubit ∈ pattern.gaps ↔
      qubit < pattern.declaredQubits.sup id ∧ qubit ∉ pattern.declaredQubits := by
  rw [gaps, List.mem_filter, List.mem_range, decide_eq_true_iff]

theorem pairwise_gaps (pattern : Pattern R) : pattern.gaps.Pairwise (· < ·) :=
  List.pairwise_lt_range.filter _

theorem nodup_gaps (pattern : Pattern R) : pattern.gaps.Nodup :=
  pattern.pairwise_gaps.imp fun less => less.ne

/-- The declared qubits and the gaps are the numbers up to the largest one. -/
theorem declaredQubits_union_gaps (nonempty : pattern.declaredQubits.Nonempty) :
    pattern.declaredQubits ∪ pattern.gaps.toFinset =
      Finset.range (pattern.declaredQubits.sup id + 1) := by
  obtain ⟨largest, declared, isLargest⟩ :=
    Finset.exists_mem_eq_sup pattern.declaredQubits nonempty id
  ext qubit
  rw [Finset.mem_union, List.mem_toFinset, mem_gaps_iff, Finset.mem_range,
    Nat.lt_succ_iff]
  constructor
  · rintro (member | ⟨below, _⟩)
    · exact Finset.le_sup (f := id) member
    · exact below.le
  · intro below
    by_cases member : qubit ∈ pattern.declaredQubits
    · exact .inl member
    · refine .inr ⟨lt_of_le_of_ne below ?_, member⟩
      rintro rfl
      exact member (isLargest ▸ declared)

/-- There are as many gaps as numbers up to the largest one that are not declared. -/
theorem length_gaps_add_card (nonempty : pattern.declaredQubits.Nonempty) :
    pattern.gaps.length + pattern.declaredQubits.card =
      pattern.declaredQubits.sup id + 1 := by
  have apart : Disjoint pattern.declaredQubits pattern.gaps.toFinset :=
    Finset.disjoint_right.2 fun qubit missing =>
      (mem_gaps_iff.1 (List.mem_toFinset.1 missing)).2
  have together := congrArg Finset.card (declaredQubits_union_gaps nonempty)
  rwa [Finset.card_union_of_disjoint apart, List.toFinset_card_of_nodup pattern.nodup_gaps,
    Finset.card_range, Nat.add_comm] at together

/-- If the numbering is in breach, some qubit is declared and some number is missing. -/
theorem nonempty_and_gaps_ne_nil
    (uneven : pattern.declaredQubits ≠ Finset.range pattern.declaredQubits.card) :
    pattern.declaredQubits.Nonempty ∧ pattern.gaps ≠ [] := by
  have nonempty : pattern.declaredQubits.Nonempty := by
    by_contra empty
    rw [Finset.not_nonempty_iff_eq_empty] at empty
    exact uneven (by simp [empty])
  refine ⟨nonempty, fun complete => uneven ?_⟩
  have length := length_gaps_add_card nonempty
  have union := declaredQubits_union_gaps nonempty
  rw [complete, List.length_nil, Nat.zero_add] at length
  rwa [complete, List.toFinset_nil, Finset.union_empty, ← length] at union

/-- Preparing the missing qubits closes the gap. -/
theorem numberingBreaches_prepare_gaps (nonempty : pattern.declaredQubits.Nonempty) :
    (pattern.prepare (.ancillas pattern.gaps)).numberingBreaches = [] := by
  unfold numberingBreaches
  rw [declaredQubits_prepare, declaredQubits_union_gaps nonempty, Finset.card_range,
    if_pos rfl]

/-- Preparing the missing qubits settles the breaches of commands that act on them, and
the gap. -/
theorem breaches_prepare_gaps (nonempty : pattern.declaredQubits.Nonempty) :
    (pattern.prepare (.ancillas pattern.gaps)).breaches =
      (pattern.allDeclarationBreaches ++ pattern.allCommandBreaches).filter fun breach =>
        ¬breach.Misses pattern.gaps := by
  have fresh : ∀ qubit ∈ pattern.gaps, qubit ∉ pattern.declaredQubits :=
    fun qubit missing => (mem_gaps_iff.1 missing).2
  have kept : pattern.allDeclarationBreaches.filter
      (fun breach => ¬breach.Misses pattern.gaps) = pattern.allDeclarationBreaches := by
    refine List.filter_eq_self.2 fun breach member => decide_eq_true ?_
    refine Violation.not_misses ?_ _
    rw [condition_of_mem_allDeclarationBreaches member]
    nofun
  rw [breaches_eq, numberingBreaches_prepare_gaps nonempty, List.append_nil,
    allDeclarationBreaches_prepare pattern.nodup_gaps fresh, allCommandBreaches_prepare,
    List.filter_append, kept]

/-- A reported gap is the breach of the numbering. -/
theorem eq_gap_of_mem_breaches
    {breach : Violation R}
    (reported : breach ∈ pattern.breaches)
    (isGap : breach.condition = .contiguous) :
    pattern.declaredQubits ≠ Finset.range pattern.declaredQubits.card ∧
      breach = .gap pattern.declaredQubits.card pattern.gaps := by
  rw [breaches_eq, List.mem_append, List.mem_append] at reported
  rcases reported with (declaration | command) | numbering
  · rw [condition_of_mem_allDeclarationBreaches declaration] at isGap
    cases isGap
  · exact absurd isGap (condition_ne_of_mem_allCommandBreaches command)
  · unfold numberingBreaches at numbering
    split at numbering
    · cases numbering
    · next uneven => exact ⟨uneven, List.mem_singleton.1 numbering⟩

end Numbering

/-- A report of a gap says how to repair it: preparing the missing qubits as
ancillas removes the gap and the commands on one of them without a
preparation from the report, and nothing else. -/
theorem gap_repair
    {pattern : Pattern R}
    {breaches : List (Violation R)}
    {gap : Violation R}
    (rejected : pattern.check = .error breaches)
    (reported : gap ∈ breaches)
    (isGap : gap.condition = .contiguous) :
    gap.qubits ≠ [] ∧
    gap.qubits.Pairwise (· < ·) ∧
    ∃ largest ∈ pattern.prepared,
      (∀ qubit ∈ pattern.prepared, qubit ≤ largest) ∧
      gap.qubits.length + pattern.prepared.length = largest + 1 ∧
      ∃ others remaining,
        breaches = others ++ [gap] ∧
        (∀ other ∈ others, other.condition ≠ .contiguous) ∧
        remaining = others.filter (fun other => ¬other.Misses gap.qubits) ∧
        (pattern.prepare (.ancillas gap.qubits)).violations = remaining ∧
        (pattern.prepare (.ancillas gap.qubits)).check =
          if remaining = [] then .ok (largest + 1) else .error remaining := by
  obtain ⟨rfl, _⟩ := (check_eq_error_iff _ _).1 rejected
  rw [violations_eq_breaches] at reported ⊢
  obtain ⟨uneven, rfl⟩ := eq_gap_of_mem_breaches reported isGap
  obtain ⟨nonempty, missing⟩ := nonempty_and_gaps_ne_nil uneven
  obtain ⟨largest, declared, isLargest⟩ :=
    Finset.exists_mem_eq_sup pattern.declaredQubits nonempty id
  have counted := length_gaps_add_card nonempty
  have repaired := breaches_prepare_gaps nonempty
  have accepted := check_reports_breaches (pattern.prepare (.ancillas pattern.gaps))
  rw [declaredQubits_prepare, declaredQubits_union_gaps nonempty, Finset.card_range,
    repaired] at accepted
  refine ⟨missing, pattern.pairwise_gaps, pattern.declaredQubits.sup id, ?_,
    fun qubit member => ?_, ?_,
    pattern.allDeclarationBreaches ++ pattern.allCommandBreaches, _, ?_,
    fun other member => ?_, rfl, (violations_eq_breaches _).trans repaired, accepted⟩
  · rwa [prepared_eq_sort, Finset.mem_sort, isLargest]
  · rw [prepared_eq_sort, Finset.mem_sort] at member
    exact Finset.le_sup (f := id) member
  · rwa [prepared_eq_sort, Finset.length_sort]
  · rw [breaches_eq, numberingBreaches, if_neg uneven]
  · rcases List.mem_append.1 member with declaration | command
    · rw [condition_of_mem_allDeclarationBreaches declaration]
      nofun
    · exact condition_ne_of_mem_allCommandBreaches command

/-- A pattern that prepares a qubit twice and leaves out the qubits 1 and 2, on which its
commands act. -/
def gapped : Pattern Nat where
  preparations := [.input 0 .plus, .ancillas [3, 0]]
  commands := [.entangle 1 3, .entangle 5 2, .measure 3 1 [1] []]

/-- The repair settles what is reported of the qubits 1 and 2 as targets, and keeps what
is reported of the others and of the signal. -/
theorem gap_repair_gapped :
    gapped.check = .error gapped.violations ∧
    .gap 2 [1, 2] ∈ gapped.violations ∧
    (∃ largest ∈ gapped.prepared, [1, 2].length + gapped.prepared.length = largest + 1) ∧
    ∃ others,
      gapped.violations = others ++ [.gap 2 [1, 2]] ∧
      others.map (fun other => (other.condition, other.qubits)) =
        [(.singlePreparation, [0]), (.preparedTarget, [1]), (.preparedTarget, [5]),
          (.preparedTarget, [2]), (.measuredSignal, [1])] ∧
      (gapped.prepare (.ancillas [1, 2])).violations =
        others.filter (fun other => ¬other.Misses [1, 2]) ∧
      (gapped.prepare (.ancillas [1, 2])).violations.map
          (fun other => (other.condition, other.qubits)) =
        [(.singlePreparation, [0]), (.preparedTarget, [5]), (.measuredSignal, [1])] := by
  have rejected : gapped.check = .error gapped.violations := rfl
  have reported : .gap 2 [1, 2] ∈ gapped.violations := List.mem_of_getLast? rfl
  obtain ⟨_, _, largest, prepared, _, counted, others, _, split, _, rfl, repaired, _⟩ :=
    gap_repair rejected reported rfl
  refine ⟨rejected, reported, ⟨largest, prepared, counted⟩, others, split, ?_, repaired,
    by decide⟩
  have others_eq := congrArg List.dropLast split
  rw [List.dropLast_concat] at others_eq
  rw [← others_eq]
  decide

/-- If nothing is reported but the gap and its qubits, the repair makes the pattern
well-formed. -/
example :
    (({ preparations := [.input 2 .plus], commands := [.entangle 0 2] } :
      Pattern Nat).prepare (.ancillas [0, 1])).check = .ok 3 := by
  rfl

end Pattern

end MeasurementCalculus
