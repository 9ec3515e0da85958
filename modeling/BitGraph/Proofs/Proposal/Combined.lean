/-
This file proves that folding is right for sums, products and bitwise
operations. Five rules cover what folding proposes for them. They all come down
to one fact: where the operands have patterns, the operation joins the total of
its variables with what its constants give together.
-/

import BitGraph.Proofs.Proposal.Operands

namespace BitGraph

variable {scope : Scope} {operation : Operation} {strictness : Strictness}
  {options : FoldOptions} {replacement : Replacement}

/-- The values among others that are not known to be constant. -/
def Scope.variables (scope : Scope) (values : List Value) : List Value :=
  values.filter fun value => (scope.constant? value).isNone

namespace Operation

/-- The rules for an operation whose operands can be combined in any order: a single operand
stands for it; otherwise the constants are merged, and what they give decides the result, or
changes nothing, or takes their place. -/
inductive CombinedRule (operation : Operation) (scope : Scope) (algebra : Algebra) :
    Replacement → Prop where
  | single {value : Value} (only : operation.operands = [value]) :
    CombinedRule operation scope algebra (.existing value)
  | decided {merged : Bits}
    (combined : algebra.combineAll (operation.operands.filterMap scope.constant?) =
      .ok (some merged))
    (decides : scope.variables operation.operands = [] ∨ algebra.absorbs merged = true) :
    CombinedRule operation scope algebra (.constant merged)
  | survivor {merged : Bits} {value : Value}
    (combined : algebra.combineAll (operation.operands.filterMap scope.constant?) =
      .ok (some merged))
    (neutral : algebra.identity.holds merged = true)
    (only : scope.variables operation.operands = [value]) :
    CombinedRule operation scope algebra (.existing value)
  | survivors {merged : Bits}
    (combined : algebra.combineAll (operation.operands.filterMap scope.constant?) =
      .ok (some merged))
    (neutral : algebra.identity.holds merged = true)
    (several : 2 ≤ (scope.variables operation.operands).length) :
    CombinedRule operation scope algebra
      (.fresh (operation.rebuilt (scope.variables operation.operands) none))
  | merged {merged : Bits}
    (combined : algebra.combineAll (operation.operands.filterMap scope.constant?) =
      .ok (some merged))
    (repeated : 2 ≤ (operation.operands.filterMap scope.constant?).length)
    (others : scope.variables operation.operands ≠ []) :
    CombinedRule operation scope algebra
      (.fresh (operation.rebuilt (scope.variables operation.operands) (some merged)))

theorem foldCombined_rule {algebra : Algebra}
    (folded : operation.foldCombined scope options algebra = .folded replacement) :
    operation.CombinedRule scope algebra replacement := by
  unfold foldCombined at folded
  split at folded
  · cases folded
    exact .single ‹_›
  · rename_i several
    simp only at folded
    split at folded
    · cases folded
    · cases folded
    · rename_i merged combined
      split at folded
      · rename_i none_
        cases folded
        exact .decided combined (.inl (List.isEmpty_iff.mp none_))
      · rename_i others
        have nonempty : scope.variables operation.operands ≠ [] :=
          fun empty => others (List.isEmpty_iff.mpr empty)
        split at folded
        · cases folded
        · split at folded
          · rename_i absorbs
            cases folded
            exact .decided combined (.inr absorbs)
          · split at folded
            · rename_i neutral
              split at folded
              · cases folded
                exact .survivor combined neutral ‹_›
              · rename_i notOne
                cases folded
                refine .survivors combined neutral ?_
                match found : scope.variables operation.operands with
                | [] => exact absurd found nonempty
                | [value] => exact absurd found (notOne value)
                | _ :: _ :: _ => exact Nat.le_add_left _ _
            · split at folded
              · cases folded
                exact .merged combined ‹_› nonempty
              · cases folded

/-- Folding an operation of a kind with an algebra is folding its constants. -/
theorem fold_of_algebra? {operation : Operation} {algebra : Algebra}
    (known : operation.kind.algebra? = some algebra) (scope : Scope) (options : FoldOptions) :
    operation.fold scope options = operation.foldCombined scope options algebra := by
  unfold fold
  cases kind : operation.kind <;> rw [kind] at known <;> cases known <;> rfl

section Combined

variable {algebra : Algebra} (known : operation.kind.algebra? = some algebra)
  (verified : operation.verify scope strictness = .ok ())

omit verified in
include known in
/-- Where all operands have patterns, the operation joins those of its variables with what its
constants give. -/
theorem combine_split {outcomes : Outcomes} (respects : outcomes.Respects scope)
    (laws : algebra.Laws) {vector : Value → BitVec operation.type.width}
    (each : ∀ value ∈ operation.operands,
      outcomes value = .ok ⟨operation.type.width, operation.type.positive, vector value⟩)
    {merged : Bits}
    (combined : algebra.combineAll (operation.operands.filterMap scope.constant?) =
      .ok (some merged)) :
    ∃ total : BitVec operation.type.width,
      merged = ⟨operation.type.width, operation.type.positive, total⟩ ∧
        operation.combine (operation.operands.map outcomes) =
          .ok ⟨operation.type.width, operation.type.positive,
            laws.join (laws.total ((scope.variables operation.operands).map vector)) total⟩ := by
  have constants := filterMap_constant? respects each
  have nonempty : (operation.operands.filter fun value => (scope.constant? value).isSome).map
      vector ≠ [] := by
    intro empty
    rw [constants, empty] at combined
    cases combined
  rw [constants, laws.combineAll_map _ nonempty] at combined
  cases combined
  refine ⟨_, rfl, ?_⟩
  have all : operation.operands.map outcomes = (operation.operands.map vector).map fun vector =>
      .ok ⟨operation.type.width, operation.type.positive, vector⟩ := by
    rw [List.map_map]
    exact List.map_congr_left each
  have some_ : operation.operands.map vector ≠ [] := by
    intro empty
    rw [List.map_eq_nil_iff.mp empty] at nonempty
    exact nonempty rfl
  have parts := laws.total_partition (fun value => (scope.constant? value).isSome) vector
    operation.operands
  simp only [Option.not_isSome] at parts
  rw [all, combine_vectors known laws some_, parts, Scope.variables]

include known verified in
/-- A pattern that all operands together give is the result of the operation. -/
theorem refines_of_vectors {outcomes : Outcomes} (respects : outcomes.Respects scope)
    {result : Except GraphError Bits}
    (vectors : ∀ vector : Value → BitVec operation.type.width,
      (∀ value ∈ operation.operands,
        outcomes value = .ok ⟨operation.type.width, operation.type.positive, vector value⟩) →
      operation.combine (operation.operands.map outcomes) = result) :
    Refines (operation.combine (operation.operands.map outcomes)) result := by
  rcases exists_vector known respects verified with ⟨vector, each⟩ | ⟨_, failed⟩
  · rw [vectors vector each]
    exact .refl _
  · intro bits computed
    rw [failed] at computed
    cases computed

include known verified in
/-- A rebuilt operation suits the original one if its variables and its constant join to the same
bit vector. -/
theorem suits_rebuilt (laws : algebra.Laws) (constant : Option (BitVec operation.type.width))
    (several : 2 ≤ (scope.variables operation.operands).length + constant.toList.length)
    (smaller : (scope.variables operation.operands).length + 2 * constant.toList.length ≤
      operation.operands.length)
    (same : ∀ outcomes : Outcomes, outcomes.Respects scope →
      ∀ vector : Value → BitVec operation.type.width, (∀ value ∈ operation.operands,
        outcomes value = .ok ⟨operation.type.width, operation.type.positive, vector value⟩) →
      operation.combine (operation.operands.map outcomes) =
        .ok ⟨operation.type.width, operation.type.positive,
          laws.total ((scope.variables operation.operands).map vector ++ constant.toList)⟩) :
    (Replacement.fresh (operation.rebuilt (scope.variables operation.operands)
      (constant.map (Bits.mk operation.type.width operation.type.positive)))).Suits scope operation
        Refines where
  type := rfl
  near value member := by
    simp only [Replacement.values, rebuilt, Option.map_map, List.filterMap_append,
      List.mem_append, List.mem_filterMap, List.mem_map] at member
    rcases member with ⟨_, ⟨variable_, inside, rfl⟩, same⟩ | ⟨operand, inside, same⟩
    · cases same
      exact .inl (List.mem_of_mem_filter inside)
    · cases constant with
      | none => cases inside
      | some vector =>
        cases List.mem_singleton.mp inside
        cases same
  fits shape fresh := by
    cases fresh
    refine Shape.fits_of_algebra known rfl ?_ fun operand member => ?_
    · cases constant <;> simpa [rebuilt] using several
    · simp only [rebuilt, List.mem_append, List.mem_map] at member
      rcases member with ⟨value, inside, rfl⟩ | inside
      · exact typeOf_combined known verified (List.mem_of_mem_filter inside)
      · cases constant with
        | none => cases inside
        | some vector =>
          cases List.mem_singleton.mp inside
          rfl
  size shape fresh := by
    cases fresh
    have pending : (operation.rebuilt (scope.variables operation.operands)
        (constant.map (Bits.mk operation.type.width operation.type.positive))).pending.length =
          constant.toList.length := by
      cases constant <;> simp [Shape.pending, rebuilt, List.filterMap_append, Operand.pending?]
    rw [pending]
    refine Nat.le_trans (Nat.le_of_eq ?_) smaller
    cases constant <;> simp [rebuilt]
  outcome outcomes respects := by
    refine refines_of_vectors known verified respects fun vector each => ?_
    have nonempty : (scope.variables operation.operands).map vector ++ constant.toList ≠ [] := by
      intro empty
      have length := congrArg List.length empty
      rw [List.length_append, List.length_map, List.length_nil] at length
      exact absurd several (by rw [length]; decide)
    rw [same outcomes respects vector each]
    have knownBuilt : (⟨operation.kind, [], .none, operation.type⟩ : Operation).kind.algebra? =
      some algebra := known
    refine (combine_vectors knownBuilt laws nonempty).symm.trans ?_
    refine congrArg _ ?_
    rw [List.map_append, rebuilt, List.map_append, List.map_map]
    refine congrArg₂ _ ?_ ?_
    · rw [map_outcome_existing]
      refine (List.map_congr_left fun value member => ?_).symm
      exact each value (List.mem_of_mem_filter member)
    · cases constant <;> rfl

include known verified in
/-- What the constants among the operands give is a pattern of the result width. -/
theorem exists_merged_vector (typed : scope.Typed) (laws : algebra.Laws) {merged : Bits}
    (combined : algebra.combineAll (operation.operands.filterMap scope.constant?) =
      .ok (some merged)) :
    ∃ vector : BitVec operation.type.width,
      merged = ⟨operation.type.width, operation.type.positive, vector⟩ := by
  obtain ⟨vectors, constants⟩ := exists_constant_vectors known typed verified
  have nonempty : vectors ≠ [] := by
    rintro rfl
    rw [constants] at combined
    cases combined
  rw [constants, laws.combineAll_map _ nonempty] at combined
  cases combined
  exact ⟨_, rfl⟩

theorem length_variables (scope : Scope) (values : List Value) :
    (scope.variables values).length + (values.filterMap scope.constant?).length =
      values.length := by
  induction values with
  | nil => rfl
  | cons value rest inductionHypothesis =>
    unfold Scope.variables at inductionHypothesis ⊢
    cases constant : scope.constant? value <;>
      simp only [List.filter_cons, List.filterMap_cons, constant, Option.isNone_none,
        Option.isNone_some, if_true, Bool.false_eq_true, if_false, List.length_cons] <;> omega

include known verified in
/-- Each rule for sums, products and bitwise operations is right. -/
theorem CombinedRule.suits (typed : scope.Typed)
    (rule : operation.CombinedRule scope algebra replacement) :
    replacement.Suits scope operation Refines := by
  obtain ⟨laws⟩ := Kind.nonempty_laws known
  cases rule with
  | single only =>
    have member : _ ∈ operation.operands := only ▸ List.mem_singleton_self _
    refine suits_existing member (typeOf_combined known verified member) fun outcomes respects => ?_
    refine refines_of_vectors known verified respects fun vector each => ?_
    rw [only, List.map_singleton, each _ member]
    exact (combine_vectors known laws (List.cons_ne_nil _ [])).trans
      (by rw [laws.total_singleton])
  | decided combined decides =>
    obtain ⟨decided, rfl⟩ := exists_merged_vector known verified typed laws combined
    refine suits_constant rfl fun outcomes respects => ?_
    refine refines_of_vectors known verified respects fun vector each => ?_
    obtain ⟨total, same, computed⟩ := combine_split known respects laws each combined
    cases same
    rw [computed]
    rcases decides with empty | absorbs
    · have nothing : laws.total [] = algebra.identity.pattern operation.type.width := rfl
      rw [empty, List.map_nil, nothing, laws.identity_join]
    · obtain ⟨element, absorbing, holds⟩ := (Option.any_eq_true _ _).mp absorbs
      have pattern : decided = element.pattern operation.type.width :=
        (element.holds_iff _).mp holds
      rw [laws.comm, pattern, laws.absorbing_join absorbing]
  | survivor combined neutral only =>
    rename_i merged value
    have member : value ∈ operation.operands := List.mem_of_mem_filter
      (show value ∈ scope.variables operation.operands from only ▸ List.mem_singleton_self value)
    refine suits_existing member (typeOf_combined known verified member) fun outcomes respects => ?_
    refine refines_of_vectors known verified respects fun vector each => ?_
    obtain ⟨total, rfl, computed⟩ := combine_split known respects laws each combined
    have pattern : total = algebra.identity.pattern operation.type.width :=
      (algebra.identity.holds_iff _).mp neutral
    rw [computed, only, pattern, laws.join_identity, List.map_singleton, laws.total_singleton,
      each value member]
  | survivors combined neutral several =>
    have counted := length_variables scope operation.operands
    have some_ : 0 < (operation.operands.filterMap scope.constant?).length := by
      refine List.length_pos_iff.mpr fun empty => ?_
      rw [empty] at combined
      cases combined
    refine suits_rebuilt known verified laws none several
      (by simp only [Option.toList_none, List.length_nil]; omega) ?_
    intro outcomes respects vector each
    obtain ⟨total, rfl, computed⟩ := combine_split known respects laws each combined
    have pattern : total = algebra.identity.pattern operation.type.width :=
      (algebra.identity.holds_iff _).mp neutral
    rw [computed, pattern, laws.join_identity, Option.toList_none, List.append_nil]
  | merged combined repeated others =>
    have counted := length_variables scope operation.operands
    have some_ := List.length_pos_iff.mpr others
    obtain ⟨constant, rfl⟩ := exists_merged_vector known verified typed laws combined
    refine suits_rebuilt known verified laws (some constant)
      (by simp only [Option.toList_some, List.length_singleton]; omega)
      (by simp only [Option.toList_some, List.length_singleton]; omega) ?_
    intro outcomes respects vector each
    obtain ⟨total, same, computed⟩ := combine_split known respects laws each combined
    cases same
    rw [computed, laws.total_append, Option.toList_some, laws.total_singleton]

end Combined

end Operation

end BitGraph
