/-
This file proves that the order of operands does not matter to folding, for the kinds
whose operands can be combined in any order. Permuted operands have the same constants
in some order, so the constants give the same together; and the same values are left.
-/

import BitGraph.Proofs.Proposal.Declining

namespace BitGraph

/-- Two outcomes differ at most in the order in which a new operation reads its values. -/
inductive FoldOutcome.SameUpToOrder : FoldOutcome → FoldOutcome → Prop where
  | unchanged : SameUpToOrder .unchanged .unchanged
  | constant (bits : Bits) :
    SameUpToOrder (.folded (.constant bits)) (.folded (.constant bits))
  | existing (value : Value) :
    SameUpToOrder (.folded (.existing value)) (.folded (.existing value))
  | fresh (kind : Kind) (attr : Attribute) (type : BitType) {firsts seconds : List Value}
    (perm : firsts.Perm seconds) (pending : Option Bits) :
    SameUpToOrder
      (.folded (.fresh
        ⟨kind, firsts.map .existing ++ (pending.map Operand.pending).toList, attr, type⟩))
      (.folded (.fresh
        ⟨kind, seconds.map .existing ++ (pending.map Operand.pending).toList, attr, type⟩))

/-! ### Combining in any order -/

/-- The order of patterns of one width does not matter for what they give together. -/
theorem Algebra.Laws.combineAll_perm {algebra : Algebra} (laws : algebra.Laws) {width : Nat}
    (positive : 0 < width) {vectors : List (BitVec width)} {patterns : List Bits}
    (perm : (vectors.map (Bits.mk width positive)).Perm patterns) :
    algebra.combineAll (vectors.map (Bits.mk width positive)) = algebra.combineAll patterns := by
  have injective : Function.Injective (Bits.mk width positive) :=
    fun _ _ same => eq_of_heq (Bits.mk.inj same).2
  obtain ⟨others, rfl⟩ : ∃ others : List (BitVec width),
      patterns = others.map (Bits.mk width positive) := by
    refine exists_vectors positive fun bits member => ?_
    obtain ⟨vector, _, rfl⟩ := List.mem_map.mp (perm.mem_iff.mpr member)
    rfl
  have vectorsPerm : vectors.Perm others := (List.map_perm_map_iff injective).mp perm
  by_cases empty : vectors = []
  · subst empty
    rw [List.nil_perm.mp vectorsPerm]
  · have others_ : others ≠ [] := fun none_ => empty (List.perm_nil.mp (none_ ▸ vectorsPerm))
    rw [laws.combineAll_map positive empty, laws.combineAll_map positive others_,
      laws.total_perm vectorsPerm]

/-! ### Folding in any order -/

section Permuted

variable {scope : Scope} {first second : Operation} {strictness : Strictness} {algebra : Algebra}
  (typed : scope.Typed) (known : first.kind.algebra? = some algebra)
  (verified : first.verify scope strictness = .ok ())
  (perm : first.operands.Perm second.operands)

include typed known verified perm in
theorem combined_constants_perm :
    algebra.combineAll (second.operands.filterMap scope.constant?) =
      algebra.combineAll (first.operands.filterMap scope.constant?) := by
  obtain ⟨laws⟩ := Kind.nonempty_laws known
  obtain ⟨vectors, same⟩ := exists_constant_vectors known typed verified
  have constants := perm.filterMap scope.constant?
  rw [same] at constants ⊢
  exact (laws.combineAll_perm _ constants).symm

variable (kind : first.kind = second.kind) (type : first.type = second.type)

include kind type in
theorem rebuilt_sameUpToOrder {firsts seconds : List Value} (values : firsts.Perm seconds)
    (pending : Option Bits) :
    FoldOutcome.SameUpToOrder (.folded (.fresh (first.rebuilt firsts pending)))
      (.folded (.fresh (second.rebuilt seconds pending))) := by
  rw [Operation.rebuilt, Operation.rebuilt, ← kind, ← type]
  exact .fresh first.kind .none first.type values pending

include typed known verified perm kind type in
theorem foldCombined_sameUpToOrder (options : FoldOptions) :
    (first.foldCombined scope options algebra).SameUpToOrder
      (second.foldCombined scope options algebra) := by
  obtain ⟨total, combined⟩ := exists_combined_constants known typed verified
  have same := combined_constants_perm typed known verified perm
  have constants := (perm.filterMap scope.constant?).length_eq
  have variables_ := perm.filter fun value => (scope.constant? value).isNone
  -- Both outcomes branch on the same total, and on permuted lists of what is not constant, so the
  -- branches agree; the second outcome is named to open the first one alone.
  generalize reordered : second.foldCombined scope options algebra = outcome
  unfold Operation.foldCombined at reordered ⊢
  split
  · rename_i single operands
    rw [operands] at perm
    rw [← List.singleton_perm.mp perm] at reordered
    exact reordered ▸ .existing single
  · rename_i several
    split at reordered
    · rename_i single operands
      rw [operands] at perm
      exact absurd (List.perm_singleton.mp perm) (several single)
    · subst reordered
      simp only [same, combined, ← constants]
      generalize first.operands.filter (fun value => (scope.constant? value).isNone) = firsts
        at variables_
      generalize second.operands.filter (fun value => (scope.constant? value).isNone) = seconds
        at variables_
      cases total with
      | none => exact .unchanged
      | some merged =>
        simp only [← variables_.isEmpty_eq]
        split_ifs
        · exact .constant merged
        · exact .unchanged
        · exact .constant merged
        · split
          · rename_i only
            rw [← List.singleton_perm.mp variables_]
            exact .existing _
          · rename_i others
            split
            · rename_i only
              exact absurd (List.perm_singleton.mp variables_) (others only)
            · exact rebuilt_sameUpToOrder kind type variables_ none
        · exact rebuilt_sameUpToOrder kind type variables_ (some merged)
        · exact .unchanged

include typed known verified in
/-- Two constants or more are combined, whatever the options. -/
theorem foldCombined_of_constant_operands (several : 2 ≤ first.operands.length)
    (constants : ∀ value ∈ first.operands, (scope.constant? value).isSome) (options : FoldOptions) :
    ∃ bits, first.foldCombined scope options algebra = .folded (.constant bits) := by
  obtain ⟨laws⟩ := Kind.nonempty_laws known
  obtain ⟨vectors, same⟩ := exists_constant_vectors known typed verified
  have nonempty : vectors ≠ [] := by
    rintro rfl
    obtain ⟨value, member⟩ := List.exists_mem_of_length_pos (Nat.lt_of_lt_of_le Nat.two_pos several)
    have absent := List.filterMap_eq_nil_iff.mp same value member
    exact Option.isSome_iff_ne_none.mp (constants value member) absent
  have rest : first.operands.filter (fun value => (scope.constant? value).isNone) = [] := by
    refine List.filter_eq_nil_iff.mpr fun value member => ?_
    rw [← Option.not_isSome, constants value member]
    decide
  unfold Operation.foldCombined
  split
  · rename_i single operands
    rw [operands] at several
    exact absurd several (Nat.not_succ_le_self 1)
  · simp only [same, laws.combineAll_map _ nonempty, rest]
    exact ⟨_, rfl⟩

end Permuted

/-- Folding a well-formed operation whose operands can be combined in any order gives the same
whatever their order is, but for the order in which a new operation reads its values. If the
operands are two constants or more, it gives one constant. -/
theorem fold_sameUpToOrder {scope : Scope} {first second : Operation} {strictness : Strictness}
    {algebra : Algebra} (typed : scope.Typed) (known : first.kind.algebra? = some algebra)
    (verified : first.verify scope strictness = .ok ())
    (perm : first.operands.Perm second.operands) (kind : first.kind = second.kind)
    (type : first.type = second.type) (options : FoldOptions) :
    (first.fold scope options).SameUpToOrder (second.fold scope options) ∧
    (2 ≤ first.operands.length →
      (∀ value ∈ first.operands, (scope.constant? value).isSome) →
        ∃ bits, first.fold scope options = .folded (.constant bits) ∧
          second.fold scope options = .folded (.constant bits)) := by
  have same : (first.fold scope options).SameUpToOrder (second.fold scope options) := by
    rw [Operation.fold_of_algebra? known, Operation.fold_of_algebra? (kind ▸ known)]
    exact foldCombined_sameUpToOrder typed known verified perm kind type options
  refine ⟨same, fun several constants => ?_⟩
  obtain ⟨bits, combined⟩ :=
    foldCombined_of_constant_operands typed known verified several constants options
  rw [Operation.fold_of_algebra? known, combined] at same ⊢
  generalize second.fold scope options = outcome at same ⊢
  cases same
  exact ⟨bits, rfl, rfl⟩

/-- Among the numbers, the constants of an exclusive disjunction are merged wherever they stand. -/
theorem fold_sameUpToOrder_numbers :
    let byte : BitType := ⟨8, by decide⟩
    let first : Operation := ⟨.xor, [.result 1, .input 0, .result 2, .input 1], .none, byte⟩
    let second : Operation := ⟨.xor, [.input 1, .result 2, .input 0, .result 1], .none, byte⟩
    (Scope.numbers byte).Typed ∧ first.verify (.numbers byte) {} = .ok () ∧
      first.operands.Perm second.operands ∧
      first.fold (.numbers byte) {} = .folded (.fresh ⟨.xor,
        [.existing (.input 0), .existing (.input 1), .pending ⟨8, by decide, 3⟩], .none, byte⟩) ∧
      (first.fold (.numbers byte) {}).SameUpToOrder (second.fold (.numbers byte) {}) := by
  intro byte first second
  have typed := Scope.typed_numbers byte
  have verified : first.verify (.numbers byte) {} = .ok () := rfl
  have perm : first.operands.Perm second.operands := by decide
  exact ⟨typed, verified, perm, by decide,
    (fold_sameUpToOrder typed rfl verified perm rfl rfl {}).1⟩

end BitGraph
