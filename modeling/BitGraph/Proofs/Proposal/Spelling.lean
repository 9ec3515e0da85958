/-
This file proves that canonical order gives expressions one spelling. Sorting
forgets the order in which the variables among the operands came, and at most
one constant stands behind them, so of two operand lists that differ in their
order only, at most one is canonical.
-/

import BitGraph.Proofs.Proposal.Canonical

namespace BitGraph

variable {scope : Scope} {algebra : Algebra} {first second : List Value}

/-! ### Lists that differ in their order -/

theorem Value.le_antisymm (first second : Value) (left : first.le second = true)
    (right : second.le first = true) : first = second := by
  cases first <;> cases second <;>
    simp only [Value.le, decide_eq_true_iff, Bool.false_eq_true] at left right ⊢ <;>
      rw [Nat.le_antisymm left right]

theorem canonicalValues_perm (perm : first.Perm second) :
    canonicalValues algebra first = canonicalValues algebra second := by
  have sorted : first.mergeSort Value.le = second.mergeSort Value.le := by
    have both : (first.mergeSort Value.le).Perm (second.mergeSort Value.le) :=
      ((List.mergeSort_perm _ _).trans perm).trans (List.mergeSort_perm _ _).symm
    exact both.eq_of_pairwise (fun _ _ _ _ => Value.le_antisymm _ _)
      (List.pairwise_mergeSort Value.le_trans Value.le_total first)
      (List.pairwise_mergeSort Value.le_trans Value.le_total second)
  rw [canonicalValues, canonicalValues, sorted]

/-! ### Canonical operand lists -/

section Canonical

variable {operation : Operation} {strictness : Strictness}

/-- The constants of a well-formed operation can be brought into canonical order. -/
theorem exists_canonicalOperands (known : operation.kind.algebra? = some algebra)
    (typed : scope.Typed) (verified : operation.verify scope strictness = .ok ()) :
    ∃ canonical, canonicalOperands algebra scope operation.operands = some canonical := by
  obtain ⟨laws⟩ := Kind.nonempty_laws known
  obtain ⟨vectors, same⟩ := exists_constant_vectors known typed verified
  have constants : (operation.operands.filter fun value =>
      (scope.constant? value).isSome).filterMap scope.constant? =
        vectors.map (Bits.mk operation.type.width operation.type.positive) :=
    (filterMap_filter_constants scope operation.operands).trans same
  obtain ⟨tail, found⟩ : ∃ tail, canonicalTail algebra scope
      (operation.operands.filter fun value => (scope.constant? value).isSome) = some tail := by
    unfold canonicalTail
    split
    · exact ⟨_, rfl⟩
    · exact ⟨_, rfl⟩
    · rename_i several _
      have nonempty : vectors ≠ [] := by
        rintro rfl
        refine several (List.eq_nil_iff_forall_not_mem.mpr fun value member => ?_)
        obtain ⟨bits, constant⟩ := Option.isSome_iff_exists.mp (List.mem_filter.mp member).2
        have inside := List.mem_filterMap.mpr ⟨value, member, constant⟩
        rw [constants] at inside
        cases inside
      rw [constants, laws.combineAll_map _ nonempty]
      exact ⟨_, rfl⟩
  exact ⟨_, by rw [canonicalOperands, found]; rfl⟩

/-- The operands of an operation that is in canonical order are its variables, sorted, and at most
one constant behind them. -/
theorem operands_of_canonicalize (known : operation.kind.algebra? = some algebra)
    (typed : scope.Typed) (verified : operation.verify scope strictness = .ok ())
    (settled : operation.canonicalize scope = none) :
    operation.operands = scope.canonicalVariables algebra operation.operands ++
        operation.operands.filter (fun value => (scope.constant? value).isSome) ∧
      (operation.operands.filter fun value => (scope.constant? value).isSome).length ≤ 1 := by
  obtain ⟨canonical, found⟩ := exists_canonicalOperands known typed verified
  have same : canonical = operation.operands.map .existing := by
    by_contra differs
    unfold Operation.canonicalize at settled
    simp only [known, Kind.commutative_of_algebra? known, found, if_neg differs, Bool.not_true,
      Bool.false_eq_true, if_false] at settled
    split at settled <;> nomatch settled
  obtain ⟨tail, rule, parts⟩ := exists_tail found
  have whole := same.symm.trans parts
  generalize operation.operands.filter (fun value => (scope.constant? value).isSome) = constants
    at rule ⊢
  have injective : Function.Injective Operand.existing := fun _ _ => Operand.existing.inj
  cases rule with
  | none =>
    rw [List.append_nil] at whole ⊢
    exact ⟨List.map_injective_iff.mpr injective whole, Nat.zero_le _⟩
  | one value =>
    refine ⟨List.map_injective_iff.mpr injective ?_, Nat.le_refl _⟩
    rw [whole, List.map_append]
    rfl
  | merged _ _ =>
    have member : Operand.pending _ ∈ operation.operands.map Operand.existing :=
      whole ▸ List.mem_append_right _ List.mem_cons_self
    obtain ⟨_, _, impossible⟩ := List.mem_map.mp member
    nomatch impossible

end Canonical

/-! ### Operations that are alike -/

/-- Operations that are the same, but perhaps for the order of operands that may change places. -/
structure Operation.Alike (first second : Operation) : Prop where
  kind : first.kind = second.kind
  attr : first.attr = second.attr
  type : first.type = second.type
  operands : first.operands = second.operands ∨
    first.kind.algebra?.isSome = true ∧ first.operands.Perm second.operands

/-- Operations that are alike and in canonical order are the same. -/
theorem Operation.Alike.eq {first second : Operation} (alike : first.Alike second)
    (typed : scope.Typed) {strictness : Strictness}
    (verified : first.verify scope strictness = .ok ())
    (verifiedSecond : second.verify scope strictness = .ok ())
    (settled : first.canonicalize scope = none) (settledSecond : second.canonicalize scope = none) :
    first = second := by
  have operands : first.operands = second.operands := by
    rcases alike.operands with same | ⟨combined, perm⟩
    · exact same
    obtain ⟨algebra, known⟩ := Option.isSome_iff_exists.mp combined
    obtain ⟨spelled, short⟩ := operands_of_canonicalize known typed verified settled
    obtain ⟨spelledSecond, shortSecond⟩ :=
      operands_of_canonicalize (alike.kind ▸ known) typed verifiedSecond settledSecond
    have constants : first.operands.filter (fun value => (scope.constant? value).isSome) =
        second.operands.filter fun value => (scope.constant? value).isSome := by
      have both := perm.filter fun value => (scope.constant? value).isSome
      generalize second.operands.filter _ = right at both shortSecond
      match right, shortSecond with
      | [], _ => exact both.eq_nil
      | [value], _ => exact List.perm_singleton.mp both
    rw [spelled, spelledSecond, constants, Scope.canonicalVariables, Scope.canonicalVariables,
      canonicalValues_perm (perm.filter _)]
  obtain ⟨kind, values, attr, type⟩ := first
  obtain ⟨kind', values', attr', type'⟩ := second
  obtain ⟨sameKind, sameAttr, sameType, _⟩ := alike
  simp only at operands sameKind sameAttr sameType
  rw [operands, sameKind, sameAttr, sameType]

end BitGraph
