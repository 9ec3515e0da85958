/-
This file proves that folding a well-formed operation declines for one reason
only: the operation divides by a constant zero. Then it always declines. Other
operations on constants can be evaluated, and the constants of a sum, a product
or a bitwise operation can be combined, since they have the width of the result.
-/

import BitGraph.Proofs.Proposal.Folding

namespace BitGraph

variable {scope : Scope} {operation : Operation} {strictness : Strictness}
  {options : FoldOptions} {reason : GraphError}

/-! ### Combining constants -/

/-- Patterns of one width can be combined. -/
theorem Algebra.Laws.exists_combineAll {algebra : Algebra} (laws : algebra.Laws) {width : Nat}
    (positive : 0 < width) (vectors : List (BitVec width)) :
    ∃ total, algebra.combineAll (vectors.map (Bits.mk width positive)) = .ok total := by
  by_cases nonempty : vectors = []
  · subst nonempty
    exact ⟨none, rfl⟩
  · exact ⟨_, laws.combineAll_map positive nonempty⟩

section Algebra

variable {algebra : Algebra} (known : operation.kind.algebra? = some algebra)
  (typed : scope.Typed) (verified : operation.verify scope strictness = .ok ())

include known typed verified

theorem exists_combined_constants :
    ∃ total, algebra.combineAll (operation.operands.filterMap scope.constant?) = .ok total := by
  obtain ⟨laws⟩ := Kind.nonempty_laws known
  obtain ⟨vectors, same⟩ := exists_constant_vectors known typed verified
  rw [same]
  exact laws.exists_combineAll _ vectors

theorem foldCombined_ne_declined : operation.foldCombined scope options algebra ≠
    .declined reason := by
  obtain ⟨total, combined⟩ := exists_combined_constants known typed verified
  unfold Operation.foldCombined
  split
  · nofun
  · cases total with
    | none =>
      simp only [combined]
      nofun
    | some merged =>
      simp only [combined]
      split_ifs
      · nofun
      · nofun
      · nofun
      · split <;> nofun
      · nofun
      · nofun

end Algebra

/-! ### Evaluating constants -/

/-- The operation divides, and its divisor is a constant without a bit set. -/
def Operation.DividesByConstantZero (operation : Operation) (scope : Scope) : Prop :=
  operation.kind.Divides ∧ (operation.divisor? scope).any Bits.isZero = true

/-- An operation on constants that cannot be evaluated divides by one that is zero. -/
theorem dividesByConstantZero_of_failed {arguments : List Bits}
    (accepts : operation.Accepts strictness (arguments.map BitType.ofBits))
    (strict : 1 ≤ strictness.minArity)
    (constants : scope.constants? operation.operands = some arguments)
    (failed : operation.evaluate arguments = .error reason) :
    reason = .bits .divisionByZero ∧ operation.DividesByConstantZero scope := by
  obtain ⟨rfl, divides, left, right, rfl, zero⟩ := (Operation.evaluate_eq_error_iff accepts strict
    (forall₂_width_ofBits arguments) reason).mp failed
  refine ⟨rfl, divides, ?_⟩
  rw [Scope.constants?_eq_some_iff] at constants
  obtain ⟨first, others, _, rest, operands⟩ := List.forall₂_cons_right_iff.mp constants
  obtain ⟨second, _, known, stop, rfl⟩ := List.forall₂_cons_right_iff.mp rest
  cases stop
  rw [divisor?_eq operands]
  exact (Option.any_eq_true _ _).mpr ⟨right, known, zero⟩

theorem foldConstants_declined (fixed : operation.kind.signature.operands ≠ .variadic)
    (typed : scope.Typed) (verified : operation.verify scope strictness = .ok ())
    {otherwise : FoldOutcome} (fallback : otherwise ≠ .declined reason)
    (declined : operation.foldConstants scope otherwise = .declined reason) :
    reason = .bits .divisionByZero ∧ operation.DividesByConstantZero scope := by
  unfold Operation.foldConstants at declined
  split at declined
  · rename_i arguments constants
    have accepts := (accepts_constants typed verified constants).of_fixed fixed {}
    have failed : operation.evaluate arguments = .error reason := by
      generalize operation.evaluate arguments = result at declined
      match result, declined with
      | .error _, rfl => rfl
    exact dividesByConstantZero_of_failed accepts (by decide) constants failed
  · exact absurd declined fallback

theorem foldDifference_ne_declined : operation.foldDifference scope ≠ .declined reason := by
  unfold Operation.foldDifference
  split
  · split_ifs <;> nofun
  · nofun

theorem foldQuotient_ne_declined : operation.foldQuotient scope ≠ .declined reason := by
  unfold Operation.foldQuotient
  split
  · split_ifs <;> nofun
  · nofun

theorem foldRemainder_ne_declined : operation.foldRemainder scope ≠ .declined reason := by
  unfold Operation.foldRemainder
  split_ifs <;> nofun

theorem foldReduction_ne_declined : operation.foldReduction scope ≠ .declined reason := by
  unfold Operation.foldReduction
  split
  · split_ifs <;> nofun
  · nofun

theorem foldSlice_ne_declined : operation.foldSlice scope ≠ .declined reason := by
  unfold Operation.foldSlice
  split
  · split_ifs
    · nofun
    · split
      · split_ifs <;> nofun
      · nofun
  · nofun

/-! ### All operations -/

/-- Folding declines only to divide by a constant zero. -/
theorem fold_declined (typed : scope.Typed)
    (verified : operation.verify scope strictness = .ok ())
    (declined : operation.fold scope options = .declined reason) :
    reason = .bits .divisionByZero ∧ operation.DividesByConstantZero scope := by
  have combined : ∀ algebra, operation.kind.algebra? = some algebra →
      operation.foldCombined scope options algebra ≠ .declined reason :=
    fun algebra known => foldCombined_ne_declined known typed verified
  have constants : operation.kind.signature.operands ≠ .variadic → ∀ otherwise,
      otherwise ≠ .declined reason →
        operation.foldConstants scope otherwise = .declined reason →
          reason = .bits .divisionByZero ∧ operation.DividesByConstantZero scope :=
    fun fixed otherwise => foldConstants_declined fixed typed verified
  have divided : operation.kind.Divides → ∀ otherwise,
      (otherwise = .declined reason →
        reason = .bits .divisionByZero ∧ operation.DividesByConstantZero scope) →
      operation.foldDivisor scope otherwise = .declined reason →
        reason = .bits .divisionByZero ∧ operation.DividesByConstantZero scope := by
    intro divides otherwise fallback outcome
    unfold Operation.foldDivisor at outcome
    split at outcome
    · rename_i zero
      exact ⟨(FoldOutcome.declined.inj outcome).symm, divides, zero⟩
    · exact fallback outcome
  unfold Operation.fold at declined
  cases kind : operation.kind <;> simp only [kind] at declined
  case constant => nomatch declined
  case add => exact absurd declined (combined .add (by rw [kind]; rfl))
  case mul => exact absurd declined (combined .mul (by rw [kind]; rfl))
  case and => exact absurd declined (combined .and (by rw [kind]; rfl))
  case or => exact absurd declined (combined .or (by rw [kind]; rfl))
  case xor => exact absurd declined (combined .xor (by rw [kind]; rfl))
  case sub => exact constants (by rw [kind]; decide) _ foldDifference_ne_declined declined
  case div =>
    exact divided (.inl kind) _ (constants (by rw [kind]; decide) _ foldQuotient_ne_declined)
      declined
  case mod =>
    exact divided (.inr kind) _ (constants (by rw [kind]; decide) _ foldRemainder_ne_declined)
      declined
  case andReduce => exact constants (by rw [kind]; decide) _ foldReduction_ne_declined declined
  case orReduce => exact constants (by rw [kind]; decide) _ foldReduction_ne_declined declined
  case xorReduce => exact constants (by rw [kind]; decide) _ foldReduction_ne_declined declined
  case concat =>
    split at declined
    · nomatch declined
    · exact constants (by rw [kind]; decide) .unchanged nofun declined
  case extract => exact constants (by rw [kind]; decide) _ foldSlice_ne_declined declined
  case signExtend => exact constants (by rw [kind]; decide) .unchanged nofun declined
  case zeroExtend => exact constants (by rw [kind]; decide) .unchanged nofun declined

/-- Folding always declines to divide by a constant zero. -/
theorem Operation.DividesByConstantZero.fold (divides : operation.DividesByConstantZero scope)
    (options : FoldOptions) :
    operation.fold scope options = .declined (.bits .divisionByZero) := by
  obtain ⟨kind | kind, zero⟩ := divides <;>
    simp only [Operation.fold, kind, Operation.foldDivisor, if_pos zero]

/-! ### Constants by number -/

/-- The scope in which each input is of a type, and each result is what a constant of this type
produces, the one of its number. -/
def Scope.numbers (type : BitType) : Scope where
  typeOf _ := some type
  definition
    | .input _ => none
    | .result number => some ⟨.constant, [], .constant (number % 2 ^ type.width), type⟩

theorem Scope.typed_numbers (type : BitType) : (numbers type).Typed := by
  intro value definition defined
  cases value with
  | input index => cases defined
  | result number =>
    cases defined
    rfl

end BitGraph
