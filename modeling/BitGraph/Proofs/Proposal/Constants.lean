/-
This file proves that folding always finds the constant that an operation on
constants computes, whatever the options: the rules that come before evaluating
decline only divisions by zero, and an operation of one operand that is replaced
by its operand computes what the operand is.
-/

import BitGraph.Proofs.Proposal.Folding

namespace BitGraph

/-- What is proposed is a constant of this pattern: a new one, or one that exists. -/
def Replacement.IsConstant (scope : Scope) (bits : Bits) : Replacement → Prop
  | .existing value => scope.constant? value = some bits
  | .constant other => other = bits
  | .fresh _ => False

variable {scope : Scope} {operation : Operation} {arguments : List Bits} {bits : Bits}

/-! ### Constants among operands -/

theorem filterMap_of_constants {operands : List Value}
    (constants : List.Forall₂ (fun value bits => scope.constant? value = some bits) operands
      arguments) : operands.filterMap scope.constant? = arguments := by
  induction constants with
  | nil => rfl
  | cons constant _ inductionHypothesis =>
    rw [List.filterMap_cons_some constant, inductionHypothesis]

theorem variables_of_constants {operands : List Value}
    (constants : List.Forall₂ (fun value bits => scope.constant? value = some bits) operands
      arguments) : operands.filter (fun value => (scope.constant? value).isNone) = [] := by
  refine List.filter_eq_nil_iff.mpr fun value member => ?_
  obtain ⟨bits, _, constant⟩ := exists_of_forall₂ constants member
  simp [constant]

/-! ### Evaluating -/

section Constants

variable (constants : List.Forall₂ (fun value bits => scope.constant? value = some bits)
  operation.operands arguments) (computed : operation.evaluate arguments = .ok bits)
include constants computed

theorem foldConstants_of_constants (otherwise : FoldOutcome) :
    operation.foldConstants scope otherwise = .folded (.constant bits) := by
  rw [Operation.foldConstants, (scope.constants?_eq_some_iff _ _).mpr constants]
  simp only [computed]
  rfl

/-- An operation of one operand is replaced by it only if it computes the same. -/
theorem constant?_of_single {single : Value} (operands : operation.operands = [single])
    (same : ∀ argument, operation.evaluate [argument] = .ok argument) :
    scope.constant? single = some bits := by
  rw [operands] at constants
  obtain ⟨argument, _, constant, stop, rfl⟩ := List.forall₂_cons_left_iff.mp constants
  cases stop
  rw [same] at computed
  cases computed
  exact constant

theorem foldCombined_of_constants {algebra : Algebra}
    (known : operation.kind.algebra? = some algebra) (options : FoldOptions) :
    ∃ replacement, operation.foldCombined scope options algebra = .folded replacement ∧
      replacement.IsConstant scope bits := by
  unfold Operation.foldCombined
  split
  · rename_i single operands
    refine ⟨_, rfl, constant?_of_single constants computed operands fun argument => ?_⟩
    rw [Operation.evaluate_of_algebra? known]
    rfl
  · rw [filterMap_of_constants constants, variables_of_constants constants]
    rw [Operation.evaluate_of_algebra? known, Kind.ofAll] at computed
    cases combined : algebra.combineAll arguments with
    | error reason =>
      rw [combined] at computed
      cases computed
    | ok total =>
      cases total with
      | none =>
        rw [combined] at computed
        cases computed
      | some merged =>
        rw [combined] at computed
        cases computed
        exact ⟨.constant bits, by simp only [combined]; rfl, rfl⟩

/-- Constants that can be divided have a divisor with a bit set. -/
theorem foldDivisor_of_constants (typed : scope.Typed) {strictness : Strictness}
    (verified : operation.verify scope strictness = .ok ()) (divides : operation.kind.Divides)
    (otherwise : FoldOutcome) : operation.foldDivisor scope otherwise = otherwise := by
  have accepts :=
    accepts_constants typed verified ((scope.constants?_eq_some_iff _ _).mpr constants)
  obtain ⟨left, right, rfl, failed, _⟩ :=
    Operation.evaluate_divides accepts divides (forall₂_width_ofBits arguments)
  obtain ⟨first, others, _, rest, operands⟩ := List.forall₂_cons_right_iff.mp constants
  obtain ⟨second, _, known, stop, rfl⟩ := List.forall₂_cons_right_iff.mp rest
  cases stop
  have apart : right.isZero = false := by
    by_contra zero
    exact nomatch (failed (Bool.eq_true_of_not_eq_false zero)).symm.trans computed
  rw [Operation.foldDivisor, divisor?_eq operands, known, Option.any_some, apart]
  rfl

end Constants

/-! ### All operations -/

/-- Folding finds the constant that an operation on constants computes. -/
theorem fold_of_constants (typed : scope.Typed) {strictness : Strictness}
    (verified : operation.verify scope strictness = .ok ())
    (constants : List.Forall₂ (fun value bits => scope.constant? value = some bits)
      operation.operands arguments) (computed : operation.evaluate arguments = .ok bits)
    (other : operation.kind ≠ .constant) (options : FoldOptions) :
    ∃ replacement, operation.fold scope options = .folded replacement ∧
      replacement.IsConstant scope bits := by
  have combined := fun algebra (known : operation.kind.algebra? = some algebra) =>
    foldCombined_of_constants constants computed known options
  have evaluated : ∀ otherwise, ∃ replacement,
      operation.foldConstants scope otherwise = .folded replacement ∧
        replacement.IsConstant scope bits := fun otherwise =>
    ⟨_, foldConstants_of_constants constants computed otherwise, rfl⟩
  have divided := foldDivisor_of_constants constants computed typed verified
  unfold Operation.fold
  cases kind : operation.kind <;> simp only
  case constant => exact absurd kind other
  case add => exact combined .add (by rw [kind]; rfl)
  case mul => exact combined .mul (by rw [kind]; rfl)
  case and => exact combined .and (by rw [kind]; rfl)
  case or => exact combined .or (by rw [kind]; rfl)
  case xor => exact combined .xor (by rw [kind]; rfl)
  case div =>
    rw [divided (.inl kind)]
    exact evaluated _
  case mod =>
    rw [divided (.inr kind)]
    exact evaluated _
  case concat =>
    split
    · rename_i single operands
      refine ⟨_, rfl, constant?_of_single constants computed operands fun argument => ?_⟩
      simp only [Operation.evaluate, kind, Kind.ofJoined, List.foldl_nil]
    · exact evaluated _
  all_goals exact evaluated _

end BitGraph
