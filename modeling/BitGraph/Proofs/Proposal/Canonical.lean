/-
This file proves that bringing operands into canonical order is right. The
canonical operands have the same result as the original ones, failures included,
and they are canonical themselves: proposing stops after one step.
-/

import BitGraph.Proofs.Proposal.Combined

namespace BitGraph

/-! ### Sorted values -/

theorem Value.le_trans (first second third : Value) (left : first.le second = true)
    (right : second.le third = true) : first.le third = true := by
  cases first <;> cases second <;> cases third <;>
    simp only [Value.le, decide_eq_true_iff, Bool.false_eq_true] at left right ⊢ <;> omega

theorem Value.le_total (first second : Value) : (first.le second || second.le first) = true := by
  cases first <;> cases second <;> simp [Value.le, Nat.le_total]

theorem dropRepeats_sublist (values : List Value) : (dropRepeats values).Sublist values := by
  fun_induction dropRepeats values with
  | case1 second rest inductionHypothesis => exact inductionHypothesis.cons _
  | case2 first second rest _ inductionHypothesis => exact inductionHypothesis.cons_cons _
  | case3 values _ => exact .refl _

theorem mem_dropRepeats (values : List Value) (value : Value) :
    value ∈ dropRepeats values ↔ value ∈ values := by
  fun_induction dropRepeats values with
  | case1 second rest inductionHypothesis => simp [inductionHypothesis]
  | case2 first second rest _ inductionHypothesis => simp [inductionHypothesis]
  | case3 values _ => exact Iff.rfl

theorem head?_dropRepeats (values : List Value) :
    (dropRepeats values).head? = values.head? := by
  fun_induction dropRepeats values with
  | case1 second rest inductionHypothesis => exact inductionHypothesis
  | case2 first second rest _ _ => rfl
  | case3 values _ => rfl

theorem isChain_dropRepeats (values : List Value) :
    (dropRepeats values).IsChain (· ≠ ·) := by
  fun_induction dropRepeats values with
  | case1 second rest inductionHypothesis => exact inductionHypothesis
  | case2 first second rest differ inductionHypothesis =>
    refine inductionHypothesis.cons fun value head => ?_
    rw [head?_dropRepeats] at head
    cases head
    exact differ
  | case3 values short =>
    cases values with
    | nil => exact .nil
    | cons first tail =>
      cases tail with
      | nil => exact .singleton first
      | cons second rest => exact absurd rfl (short first second rest)

theorem dropRepeats_of_isChain {values : List Value} (chain : values.IsChain (· ≠ ·)) :
    dropRepeats values = values := by
  fun_induction dropRepeats values with
  | case1 second rest _ => exact absurd rfl (List.isChain_cons_cons.mp chain).1
  | case2 first second rest _ inductionHypothesis =>
    rw [inductionHypothesis (List.isChain_cons_cons.mp chain).2]
  | case3 values _ => rfl

section Values

variable (algebra : Algebra) (values : List Value)

theorem mem_canonicalValues (value : Value) :
    value ∈ canonicalValues algebra values ↔ value ∈ values := by
  unfold canonicalValues
  split
  · rw [mem_dropRepeats, List.mem_mergeSort]
  · exact List.mem_mergeSort

theorem length_canonicalValues_le : (canonicalValues algebra values).length ≤ values.length := by
  unfold canonicalValues
  split
  · exact (dropRepeats_sublist _).length_le.trans (Nat.le_of_eq (List.length_mergeSort values))
  · exact Nat.le_of_eq (List.length_mergeSort values)

/-- Canonical values are sorted, and stay as they are if they are sorted again. -/
theorem canonicalValues_canonicalValues :
    canonicalValues algebra (canonicalValues algebra values) = canonicalValues algebra values := by
  have sorted : (values.mergeSort Value.le).Pairwise fun first second => first.le second = true :=
    List.pairwise_mergeSort Value.le_trans Value.le_total values
  unfold canonicalValues
  by_cases idempotent : algebra.idempotent = true
  · simp only [if_pos idempotent]
    rw [List.mergeSort_of_pairwise (sorted.sublist (dropRepeats_sublist _)),
      dropRepeats_of_isChain (isChain_dropRepeats _)]
  · simp only [if_neg idempotent]
    exact List.mergeSort_of_pairwise sorted

end Values

/-! ### Canonical operands -/

/-- The three ends of a canonical operand list: nothing, the only constant, or the constant that
several give together. -/
inductive TailRule (algebra : Algebra) (scope : Scope) : List Value → List Operand → Prop where
  | none : TailRule algebra scope [] []
  | one (value : Value) : TailRule algebra scope [value] [.existing value]
  | merged {constants : List Value} {merged : Bits} (several : 2 ≤ constants.length)
    (combined : algebra.combineAll (constants.filterMap scope.constant?) = .ok (some merged)) :
    TailRule algebra scope constants [.pending merged]

section Operands

variable {scope : Scope} {operation : Operation} {strictness : Strictness} {algebra : Algebra}
  {canonical : List Operand}

theorem canonicalTail_rule {constants : List Value} {tail : List Operand}
    (found : canonicalTail algebra scope constants = some tail) :
    TailRule algebra scope constants tail := by
  unfold canonicalTail at found
  split at found
  · cases found
    exact .none
  · cases found
    exact .one _
  · rename_i notEmpty notOne
    split at found
    · cases found
      refine .merged ?_ ‹_›
      match constants, notEmpty, notOne with
      | [], notEmpty, _ => exact absurd rfl notEmpty
      | [value], _, notOne => exact absurd rfl (notOne value)
      | _ :: _ :: _, _, _ => exact Nat.le_add_left _ _
    · cases found
    · cases found

/-- The variables among values, in canonical order. -/
def Scope.canonicalVariables (scope : Scope) (algebra : Algebra) (values : List Value) :
    List Value :=
  canonicalValues algebra (values.filter fun value => !(scope.constant? value).isSome)

theorem exists_tail {operands : List Value}
    (found : canonicalOperands algebra scope operands = some canonical) :
    ∃ tail, TailRule algebra scope
        (operands.filter fun value => (scope.constant? value).isSome) tail ∧
      canonical = (scope.canonicalVariables algebra operands).map .existing ++ tail := by
  obtain ⟨tail, isTail, same⟩ := Option.map_eq_some_iff.mp found
  exact ⟨tail, canonicalTail_rule isTail, same.symm⟩

theorem mem_canonicalVariables {operands : List Value} {value : Value}
    (member : value ∈ scope.canonicalVariables algebra operands) : value ∈ operands :=
  List.mem_of_mem_filter ((mem_canonicalValues algebra _ value).mp member)

/-- Canonical variables with at most one constant behind them are canonical. -/
theorem canonicalOperands_self {values constants : List Value}
    (unknowns : ∀ value ∈ values, scope.constant? value = none)
    (constant : ∀ value ∈ constants, (scope.constant? value).isSome = true)
    (short : constants.length ≤ 1) :
    canonicalOperands algebra scope (canonicalValues algebra values ++ constants) =
      some ((canonicalValues algebra values ++ constants).map .existing) := by
  have isVariable : ∀ value ∈ canonicalValues algebra values, scope.constant? value = none :=
    fun value member => unknowns value ((mem_canonicalValues algebra values value).mp member)
  have kept : (canonicalValues algebra values ++ constants).filter
      (fun value => !(scope.constant? value).isSome) = canonicalValues algebra values := by
    rw [List.filter_append, List.filter_eq_self.mpr fun value member => by
      rw [isVariable value member]; rfl, List.filter_eq_nil_iff.mpr fun value member => by
      rw [constant value member]; decide, List.append_nil]
  have behind : (canonicalValues algebra values ++ constants).filter
      (fun value => (scope.constant? value).isSome) = constants := by
    rw [List.filter_append, List.filter_eq_nil_iff.mpr fun value member => by
      rw [isVariable value member]; decide, List.filter_eq_self.mpr constant, List.nil_append]
  have tail : canonicalTail algebra scope constants = some (constants.map .existing) := by
    match constants, short with
    | [], _ => rfl
    | [value], _ => rfl
  simp only [canonicalOperands, kept, behind, tail, canonicalValues_canonicalValues,
    Option.map_some, List.map_append]

section Known

variable (known : operation.kind.algebra? = some algebra)
  (verified : operation.verify scope strictness = .ok ())
  (found : canonicalOperands algebra scope operation.operands = some canonical)

include found in
theorem mem_of_existing_canonical {value : Value} (member : .existing value ∈ canonical) :
    value ∈ operation.operands := by
  obtain ⟨tail, rule, rfl⟩ := exists_tail found
  rcases List.mem_append.mp member with inside | inside
  · obtain ⟨_, variable_, same⟩ := List.mem_map.mp inside
    cases same
    exact mem_canonicalVariables variable_
  · generalize isConstants : operation.operands.filter
      (fun value => (scope.constant? value).isSome) = constants at rule
    cases rule with
    | none => cases inside
    | one other =>
      cases List.mem_singleton.mp inside
      exact List.mem_of_mem_filter (isConstants ▸ List.mem_singleton_self value)
    | merged _ _ => cases List.mem_singleton.mp inside

include found in
theorem canonical_ne_nil (nonempty : operation.operands ≠ []) : canonical ≠ [] := by
  obtain ⟨tail, rule, rfl⟩ := exists_tail found
  intro empty
  obtain ⟨noVariables, rfl⟩ := List.append_eq_nil_iff.mp empty
  generalize isConstants : operation.operands.filter
    (fun value => (scope.constant? value).isSome) = constants at rule
  cases rule
  refine nonempty (List.eq_nil_iff_forall_not_mem.mpr fun value member => ?_)
  have unknown := List.filter_eq_nil_iff.mp isConstants value member
  have inside : value ∈ scope.canonicalVariables algebra operation.operands :=
    (mem_canonicalValues algebra _ value).mpr (List.mem_filter.mpr ⟨member, by simpa using unknown⟩)
  rw [List.map_eq_nil_iff.mp noVariables] at inside
  cases inside

include found in
theorem length_canonical :
    canonical.length + (canonical.filterMap Operand.pending?).length ≤
      operation.operands.length := by
  obtain ⟨tail, rule, rfl⟩ := exists_tail found
  have unknowns : (scope.canonicalVariables algebra operation.operands).length ≤ _ :=
    length_canonicalValues_le algebra _
  have parts := (List.filter_append_perm (fun value => (scope.constant? value).isSome)
    operation.operands).length_eq
  have none_pending : ((scope.canonicalVariables algebra operation.operands).map
      Operand.existing).filterMap Operand.pending? = [] := by
    rw [List.filterMap_map]
    exact List.filterMap_eq_nil_iff.mpr fun _ _ => rfl
  rw [List.length_append] at parts
  rw [List.filterMap_append, none_pending, List.nil_append, List.length_append, List.length_map]
  generalize operation.operands.filter (fun value => (scope.constant? value).isSome) = constants
    at rule parts
  cases rule with
  | none => simpa using unknowns.trans (by simpa using Nat.le_of_eq parts)
  | one other =>
    simp only [List.length_singleton, List.filterMap_cons, Operand.pending?, List.filterMap_nil,
      List.length_nil] at parts ⊢
    omega
  | merged several _ =>
    simp only [List.length_singleton, List.filterMap_cons, Operand.pending?, List.filterMap_nil]
    omega

include found in
/-- Where the canonical operands are others, there are some. -/
theorem operands_ne_nil (differs : canonical ≠ operation.operands.map .existing) :
    operation.operands ≠ [] := by
  intro empty
  have short := length_canonical found
  rw [empty, List.length_nil] at short
  rw [empty] at differs
  exact differs (List.length_eq_zero_iff.mp (by omega))

include known verified found in
theorem type?_canonical (typed : scope.Typed) {operand : Operand} (member : operand ∈ canonical) :
    operand.type? scope = some operation.type := by
  cases operand with
  | existing value => exact typeOf_combined known verified (mem_of_existing_canonical found member)
  | pending bits =>
    obtain ⟨laws⟩ := Kind.nonempty_laws known
    obtain ⟨tail, rule, rfl⟩ := exists_tail found
    have inTail : Operand.pending bits ∈ tail := by
      rcases List.mem_append.mp member with inside | inside
      · obtain ⟨_, _, impossible⟩ := List.mem_map.mp inside
        cases impossible
      · exact inside
    generalize isConstants : operation.operands.filter
      (fun value => (scope.constant? value).isSome) = constants at rule
    cases rule with
    | none => cases inTail
    | one other => cases List.mem_singleton.mp inTail
    | merged several combined =>
      cases List.mem_singleton.mp inTail
      have same : constants.filterMap scope.constant? =
          operation.operands.filterMap scope.constant? :=
        isConstants ▸ filterMap_filter_constants scope operation.operands
      obtain ⟨vector, rfl⟩ := Operation.exists_merged_vector known verified typed laws
        (same ▸ combined)
      rfl

/-- The end of a canonical operand list gives what the constants give. -/
theorem TailRule.exists_vectors {outcomes : Outcomes} (respects : outcomes.Respects scope)
    (laws : algebra.Laws) {type : BitType} {vector : Value → BitVec type.width}
    {constants : List Value} {tail : List Operand} (rule : TailRule algebra scope constants tail)
    (isConstant : ∀ value ∈ constants, (scope.constant? value).isSome = true)
    (each : ∀ value ∈ constants, outcomes value = .ok ⟨type.width, type.positive, vector value⟩) :
    ∃ vectors : List (BitVec type.width),
      tail.map (Operand.outcome outcomes) =
        vectors.map (fun vector => .ok ⟨type.width, type.positive, vector⟩) ∧
      laws.total vectors = laws.total (constants.map vector) := by
  cases rule with
  | none => exact ⟨[], rfl, rfl⟩
  | one value =>
    refine ⟨[vector value], ?_, rfl⟩
    exact congrArg (fun result => [result]) (each value List.mem_cons_self)
  | merged several combined =>
    have all : constants.filterMap scope.constant? =
        (constants.map vector).map (Bits.mk type.width type.positive) := by
      rw [filterMap_constant? respects each, List.filter_eq_self.mpr isConstant]
    have nonempty : constants.map vector ≠ [] := by
      intro empty
      rw [List.map_eq_nil_iff.mp empty] at several
      exact absurd several (by decide)
    rw [all, laws.combineAll_map _ nonempty] at combined
    cases combined
    exact ⟨[laws.total (constants.map vector)], rfl, laws.total_singleton _⟩

include known verified found in
/-- The canonical operands have the same result as the original ones. -/
theorem combine_canonical (typed : scope.Typed) {outcomes : Outcomes}
    (respects : outcomes.Respects scope) :
    operation.combine (canonical.map (Operand.outcome outcomes)) =
      operation.combine (operation.operands.map outcomes) := by
  obtain ⟨laws⟩ := Kind.nonempty_laws known
  have types : ∀ operand ∈ canonical, operand.type? scope = some operation.type :=
    fun operand => type?_canonical known verified found typed
  by_cases nonempty : operation.operands = []
  · have short := length_canonical found
    rw [nonempty, List.length_nil] at short
    have none_ : canonical = [] := List.length_eq_zero_iff.mp (by omega)
    rw [nonempty, none_]
    rfl
  obtain ⟨tail, rule, rfl⟩ := exists_tail found
  rcases exists_vector known respects verified with
    ⟨vector, each⟩ | ⟨⟨value, member, failed⟩, fails⟩
  · obtain ⟨vectors, sameTail, total⟩ := rule.exists_vectors respects laws
      (fun value member => (List.mem_filter.mp member).2)
      (fun value member => each value (List.mem_of_mem_filter member))
    have sameAll : operation.operands.map outcomes = (operation.operands.map vector).map
        fun vector => .ok ⟨operation.type.width, operation.type.positive, vector⟩ := by
      rw [List.map_map]
      exact List.map_congr_left each
    have sameCanonical : ((scope.canonicalVariables algebra operation.operands).map
        Operand.existing ++ tail).map (Operand.outcome outcomes) =
          ((scope.canonicalVariables algebra operation.operands).map vector ++ vectors).map
            fun vector => .ok ⟨operation.type.width, operation.type.positive, vector⟩ := by
      rw [List.map_append, List.map_append, map_outcome_existing, sameTail, List.map_map]
      refine congrArg (· ++ _) (List.map_congr_left fun value member => ?_)
      exact each value (mem_canonicalVariables member)
    rw [sameAll, sameCanonical]
    have some_ :
        (scope.canonicalVariables algebra operation.operands).map vector ++ vectors ≠ [] := by
      intro empty
      rw [empty, List.map_nil, List.map_eq_nil_iff] at sameCanonical
      exact canonical_ne_nil found nonempty sameCanonical
    rw [combine_vectors known laws some_,
      combine_vectors known laws (fun empty => nonempty (List.map_eq_nil_iff.mp empty)),
      laws.total_append, total, Scope.canonicalVariables, laws.total_canonicalValues,
      ← laws.total_partition]
  · rw [fails]
    refine combine_failure operation operation.type ?_ ?_
    · intro result inside
      obtain ⟨operand, inCanonical, rfl⟩ := List.mem_map.mp inside
      exact respects.admits_operand (types operand inCanonical)
    · have unknown : scope.constant? value = none := by
        cases constant : scope.constant? value with
        | none => rfl
        | some bits =>
          rw [respects.constant value bits constant] at failed
          cases failed
      have inside : value ∈ scope.canonicalVariables algebra operation.operands := by
        refine (mem_canonicalValues algebra _ value).mpr (List.mem_filter.mpr ⟨member, ?_⟩)
        rw [unknown]
        rfl
      rw [List.map_append, List.mem_append, map_outcome_existing, ← failed]
      exact .inl (List.mem_map_of_mem inside)

end Known

/-! ### Proposing the canonical form -/

/-- What is proposed for an operation with these canonical operands. -/
def Operation.ofCanonical (operation : Operation) : List Operand → Replacement
  | [.existing value] => .existing value
  | [.pending bits] => .constant bits
  | operands => .fresh ⟨operation.kind, operands, .none, operation.type⟩

theorem canonicalize_eq_some {replacement : Replacement}
    (proposed : operation.canonicalize scope = some replacement) :
    ∃ algebra canonical, operation.kind.algebra? = some algebra ∧
      canonicalOperands algebra scope operation.operands = some canonical ∧
        canonical ≠ operation.operands.map .existing ∧
          replacement = operation.ofCanonical canonical := by
  unfold Operation.canonicalize at proposed
  split at proposed
  · cases proposed
  · rename_i algebra known
    rw [Kind.commutative_of_algebra? known] at proposed
    simp only [Bool.not_true, Bool.false_eq_true, if_false] at proposed
    split at proposed
    · cases proposed
    · rename_i canonical found
      split at proposed
      · cases proposed
      · rename_i differs
        refine ⟨algebra, canonical, known, found, differs, ?_⟩
        split at proposed <;> cases proposed
        · rfl
        · rfl
        · rename_i notExisting notPending
          unfold Operation.ofCanonical
          split
          · exact absurd rfl (notExisting _)
          · exact absurd rfl (notPending _)
          · rfl

/-- Constants have no canonical form. -/
theorem not_constant_of_canonicalize {replacement : Replacement}
    (proposed : operation.canonicalize scope = some replacement) :
    operation.kind ≠ .constant := by
  obtain ⟨algebra, _, known, _⟩ := canonicalize_eq_some proposed
  intro kind
  rw [kind] at known
  cases known

/-- What is proposed for an operation suits it, and keeps its failures. -/
theorem canonicalize_suits {replacement : Replacement} (typed : scope.Typed)
    (verified : operation.verify scope strictness = .ok ())
    (proposed : operation.canonicalize scope = some replacement) :
    replacement.Suits scope operation Eq := by
  obtain ⟨algebra, canonical, known, found, differs, rfl⟩ := canonicalize_eq_some proposed
  have types : ∀ operand ∈ canonical, operand.type? scope = some operation.type :=
    fun operand => type?_canonical known verified found typed
  have same : ∀ outcomes : Outcomes, outcomes.Respects scope →
      operation.combine (operation.operands.map outcomes) =
        operation.combine (canonical.map (Operand.outcome outcomes)) :=
    fun outcomes respects => (combine_canonical known verified found typed respects).symm
  have single : ∀ operand, canonical = [operand] → ∀ outcomes : Outcomes,
      outcomes.Respects scope →
        operation.combine (operation.operands.map outcomes) = operand.outcome outcomes := by
    rintro operand rfl outcomes respects
    exact (same outcomes respects).trans
      (combine_single known (respects.admits_operand (types operand List.mem_cons_self)))
  unfold Operation.ofCanonical
  split
  · rename_i value
    have member := mem_of_existing_canonical found (List.mem_singleton_self _)
    exact suits_existing member (typeOf_combined known verified member) (single _ rfl)
  · rename_i bits
    have type := types _ (List.mem_singleton_self _)
    exact suits_constant (congrArg BitType.width (Option.some.inj type)) (single _ rfl)
  · rename_i notExisting notPending
    have several : 2 ≤ canonical.length := by
      have nonempty := operands_ne_nil found differs
      match canonical, canonical_ne_nil found nonempty, notExisting, notPending with
      | [], empty, _, _ => exact absurd rfl empty
      | [.existing value], _, notExisting, _ => exact absurd rfl (notExisting value)
      | [.pending bits], _, _, notPending => exact absurd rfl (notPending bits)
      | _ :: _ :: _, _, _, _ => exact Nat.le_add_left _ _
    refine ⟨rfl, fun value member => .inl ?_, fun shape fresh => ?_, fun shape fresh => ?_,
      fun outcomes respects => ?_⟩
    · obtain ⟨operand, inside, isValue⟩ := List.mem_filterMap.mp member
      cases operand with
      | existing other =>
        cases isValue
        exact mem_of_existing_canonical found inside
      | pending bits => cases isValue
    · cases fresh
      exact Shape.fits_of_algebra known rfl several types
    · cases fresh
      exact length_canonical found
    · rw [same outcomes respects]
      have kind : (⟨operation.kind, [], .none, operation.type⟩ : Operation).kind =
        operation.kind := rfl
      exact combine_of_kind known kind _

end Operands

end BitGraph
