/-
This file proves that operands which differ in their order only have one canonical
spelling, whether it is proposed or already there. Sorting forgets the order of the
variables, and where repetitions are dropped the sorted list depends on nothing but
which variables there are. The constants come to the same total in any order.
-/

import BitGraph.Proofs.Proposal.Reordering
import BitGraph.Proofs.Proposal.Spelling

namespace BitGraph

variable {scope : Scope} {algebra : Algebra}

/-! ### Sorted values without repetitions -/

/-- Sorted values of which neighbours differ are all different. -/
theorem nodup_of_isChain {values : List Value}
    (sorted : values.Pairwise fun earlier later => earlier.le later = true)
    (chain : values.IsChain (· ≠ ·)) : values.Nodup := by
  induction values with
  | nil => exact .nil
  | cons first rest inductionHypothesis =>
    obtain ⟨least, sortedRest⟩ := List.pairwise_cons.mp sorted
    refine List.nodup_cons.mpr ⟨fun repeated => ?_, inductionHypothesis sortedRest chain.tail⟩
    -- A repetition further back would have its neighbours between two equal values.
    cases rest with
    | nil => cases repeated
    | cons second others =>
      refine (List.isChain_cons_cons.mp chain).1 (Value.le_antisymm _ _ ?_ ?_)
      · exact least second List.mem_cons_self
      · rcases List.mem_cons.mp repeated with same | behind
        · exact same ▸ least second List.mem_cons_self
        · exact (List.pairwise_cons.mp sortedRest).1 first behind

theorem pairwise_canonicalValues (algebra : Algebra) (values : List Value) :
    (canonicalValues algebra values).Pairwise fun earlier later => earlier.le later = true := by
  have sorted := List.pairwise_mergeSort Value.le_trans Value.le_total values
  unfold canonicalValues
  split
  · exact sorted.sublist (dropRepeats_sublist _)
  · exact sorted

theorem nodup_canonicalValues (idempotent : algebra.idempotent = true) (values : List Value) :
    (canonicalValues algebra values).Nodup := by
  have sorted := pairwise_canonicalValues algebra values
  simp only [canonicalValues, if_pos idempotent] at sorted ⊢
  exact nodup_of_isChain sorted (isChain_dropRepeats _)

theorem canonicalValues_perm_self (repeating : algebra.idempotent = false) (values : List Value) :
    (canonicalValues algebra values).Perm values := by
  simp only [canonicalValues, repeating, Bool.false_eq_true, if_false]
  exact List.mergeSort_perm _ _

/-- Where repeating a value changes nothing, only which values there are counts. -/
theorem canonicalValues_of_mem_iff (idempotent : algebra.idempotent = true)
    {first second : List Value} (same : ∀ value, value ∈ first ↔ value ∈ second) :
    canonicalValues algebra first = canonicalValues algebra second := by
  have perm : (canonicalValues algebra first).Perm (canonicalValues algebra second) := by
    rw [List.perm_ext_iff_of_nodup (nodup_canonicalValues idempotent first)
      (nodup_canonicalValues idempotent second)]
    intro value
    rw [mem_canonicalValues, mem_canonicalValues, same]
  exact perm.eq_of_pairwise (fun _ _ _ _ => Value.le_antisymm _ _)
    (pairwise_canonicalValues algebra first) (pairwise_canonicalValues algebra second)

theorem canonicalVariables_eq (scope : Scope) (algebra : Algebra) (operands : List Value) :
    scope.canonicalVariables algebra operands =
      canonicalValues algebra (scope.variables operands) := by
  simp only [Scope.canonicalVariables, Scope.variables, Option.not_isSome]

/-- Conjunctions and disjunctions are the operations for which repeating an operand changes
nothing. -/
theorem idempotent_iff {kind : Kind} (known : kind.algebra? = some algebra) :
    algebra.idempotent = true ↔ kind = .and ∨ kind = .or := by
  cases kind <;> cases known <;> decide

/-! ### Constants in any order -/

/-- Constants of one width give the same end of a canonical operand list in whatever order they
are. -/
theorem canonicalTail_perm (laws : algebra.Laws) {width : Nat} (positive : 0 < width)
    {first second : List Value} {vectors : List (BitVec width)}
    (constants : first.filterMap scope.constant? = vectors.map (Bits.mk width positive))
    (perm : first.Perm second) :
    canonicalTail algebra scope first = canonicalTail algebra scope second := by
  match first, second, perm.length_eq with
  | [], [], _ => rfl
  | [_], [_], _ => rw [List.singleton_perm_singleton.mp perm]
  | _ :: _ :: _, _ :: _ :: _, _ =>
    have known := perm.filterMap scope.constant?
    rw [constants] at known
    simp only [canonicalTail, constants, laws.combineAll_perm positive known]

/-! ### Spellings -/

/-- The operands of an operation as canonical order spells them: those that are proposed, or those
that it has already. A value or a constant that is proposed is its own only operand. -/
def Operation.spelling (operation : Operation) (scope : Scope) : List Operand :=
  match operation.canonicalize scope with
  | none => operation.operands.map .existing
  | some (.existing value) => [.existing value]
  | some (.constant bits) => [.pending bits]
  | some (.fresh shape) => shape.operands

theorem Operation.spelling_eq {operation : Operation} {canonical : List Operand}
    (known : operation.kind.algebra? = some algebra)
    (found : canonicalOperands algebra scope operation.operands = some canonical) :
    operation.spelling scope = canonical := by
  unfold Operation.spelling Operation.canonicalize
  simp only [known, Kind.commutative_of_algebra? known, found, Bool.not_true, Bool.false_eq_true,
    if_false]
  by_cases same : canonical = operation.operands.map .existing
  · rw [if_pos same]
    exact same.symm
  · rw [if_neg same]
    match canonical with
    | [] => rfl
    | [.existing value] => rfl
    | [.pending bits] => rfl
    | .existing _ :: _ :: _ => rfl
    | .pending _ :: _ :: _ => rfl

/-- A well-formed operation is spelled like every operation of its kind that has the same operands
in another order. Conjunctions and disjunctions are so even if the other one repeats variables more
or less often. -/
theorem spelling_unique {first second : Operation} {strictness : Strictness}
    (typed : scope.Typed) (known : first.kind.algebra? = some algebra)
    (kind : first.kind = second.kind)
    (verified : first.verify scope strictness = .ok ())
    (same : first.operands.Perm second.operands ∨
      (first.kind = .and ∨ first.kind = .or) ∧
        (first.operands.filter fun value => (scope.constant? value).isSome).Perm
          (second.operands.filter fun value => (scope.constant? value).isSome) ∧
        ∀ value, value ∈ scope.variables first.operands ↔
          value ∈ scope.variables second.operands) :
    first.spelling scope = second.spelling scope := by
  obtain ⟨laws⟩ := Kind.nonempty_laws known
  have variables_ : scope.canonicalVariables algebra first.operands =
      scope.canonicalVariables algebra second.operands := by
    rcases same with perm | ⟨repeating, _, members⟩
    · exact canonicalValues_perm (perm.filter _)
    · rw [canonicalVariables_eq, canonicalVariables_eq]
      exact canonicalValues_of_mem_iff ((idempotent_iff known).mpr repeating) members
  have constants : (first.operands.filter fun value => (scope.constant? value).isSome).Perm
      (second.operands.filter fun value => (scope.constant? value).isSome) := by
    rcases same with perm | ⟨_, perm, _⟩
    · exact perm.filter _
    · exact perm
  obtain ⟨vectors, patterns⟩ := exists_constant_vectors known typed verified
  obtain ⟨canonical, found⟩ := exists_canonicalOperands known typed verified
  have tail : canonicalTail algebra scope
      (first.operands.filter fun value => (scope.constant? value).isSome) =
        canonicalTail algebra scope
          (second.operands.filter fun value => (scope.constant? value).isSome) := by
    rw [← filterMap_filter_constants] at patterns
    exact canonicalTail_perm laws first.type.positive patterns constants
  have foundSecond : canonicalOperands algebra scope second.operands = some canonical := by
    have parts : ∀ operands, canonicalOperands algebra scope operands =
        (canonicalTail algebra scope (operands.filter fun value =>
          (scope.constant? value).isSome)).map
            ((scope.canonicalVariables algebra operands).map .existing ++ ·) := fun _ => rfl
    rw [← found, parts, parts, variables_, tail]
  rw [first.spelling_eq known found, second.spelling_eq (kind ▸ known) foundSecond]

theorem spelling_unique_numbers :
    let byte : BitType := ⟨8, by decide⟩
    let first : Operation :=
      ⟨.or, [.result 1, .input 1, .input 0, .input 1, .result 2], .none, byte⟩
    let second : Operation := ⟨.or, [.input 0, .result 2, .input 1, .result 1], .none, byte⟩
    (Scope.numbers byte).Typed ∧ first.verify (.numbers byte) {} = .ok () ∧
      second.verify (.numbers byte) {} = .ok () ∧
      first.spelling (.numbers byte) =
        [.existing (.input 0), .existing (.input 1), .pending ⟨8, by decide, 3⟩] ∧
      first.spelling (.numbers byte) = second.spelling (.numbers byte) := by
  intro byte first second
  have typed := Scope.typed_numbers byte
  have verified : first.verify (.numbers byte) {} = .ok () := rfl
  have verifiedSecond : second.verify (.numbers byte) {} = .ok () := rfl
  have members : ∀ value, value ∈ (Scope.numbers byte).variables first.operands ↔
      value ∈ (Scope.numbers byte).variables second.operands := by
    have firsts : (Scope.numbers byte).variables first.operands =
        [.input 1, .input 0, .input 1] := by decide
    have seconds : (Scope.numbers byte).variables second.operands = [.input 0, .input 1] := by
      decide
    intro value
    rw [firsts, seconds]
    grind
  refine ⟨typed, verified, verifiedSecond, by cbv, ?_⟩
  exact spelling_unique typed rfl rfl verified
    (.inr ⟨.inr rfl, by decide, members⟩)

end BitGraph
