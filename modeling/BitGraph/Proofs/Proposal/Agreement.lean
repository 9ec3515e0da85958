/-
This file proves that folding and evaluating agree on constants. An operation whose
operands are all constants folds to the constant that it computes, or to an operand
that is this constant already; and where it computes nothing, folding declines and
gives the reason. There is no other reason to decline than a divisor that is a
constant zero, and with such a divisor the dividend does not matter.
-/

import BitGraph.Proofs.Proposal.Constants
import BitGraph.Proofs.Proposal.Declining
import BitGraph.Proofs.Proposal.Soundness

namespace BitGraph

variable {scope : Scope} {operation : Operation} {strictness : Strictness}
  {options : FoldOptions} {arguments : List Bits}

/-- Folding declines exactly to divide by a constant zero. -/
theorem fold_declined_iff (typed : scope.Typed)
    (verified : operation.verify scope strictness = .ok ()) (options : FoldOptions)
    (reason : GraphError) :
    operation.fold scope options = .declined reason ↔
      reason = .bits .divisionByZero ∧ operation.DividesByConstantZero scope := by
  constructor
  · exact fold_declined typed verified
  · rintro ⟨rfl, divides⟩
    exact divides.fold options

/-- The constant that is proposed is new, or an operand. -/
theorem Replacement.DrawnFrom.constant_or_operand {replacement : Replacement} {bits : Bits}
    (drawn : replacement.DrawnFrom scope operation) (constant : replacement.IsConstant scope bits) :
    replacement = .constant bits ∨
      ∃ value ∈ operation.operands, replacement = .existing value ∧
        scope.constant? value = some bits := by
  cases drawn with
  | operand member => exact .inr ⟨_, member, rfl, constant⟩
  | constant other =>
    cases constant
    exact .inl rfl
  | operands _ => cases constant
  | source _ _ _ _ _ => cases constant

/-- Folding a well-formed operation declines exactly to divide by a constant zero. On constants,
it finds what the operation computes, and declines with the reason why it computes nothing. -/
theorem fold_agrees_with_evaluation (typed : scope.Typed)
    (verified : operation.verify scope strictness = .ok ()) (strict : 1 ≤ strictness.minArity)
    (options : FoldOptions) :
    (∀ reason, operation.fold scope options = .declined reason ↔
      reason = .bits .divisionByZero ∧ operation.DividesByConstantZero scope) ∧
    ∀ arguments, operation.operands ≠ [] →
      List.Forall₂ (fun value bits => scope.constant? value = some bits) operation.operands
        arguments →
      (∀ bits, operation.evaluate arguments = .ok bits →
        operation.fold scope options = .folded (.constant bits) ∨
        ∃ value ∈ operation.operands, scope.constant? value = some bits ∧
          operation.fold scope options = .folded (.existing value)) ∧
      ∀ reason, operation.evaluate arguments = .error reason →
        operation.fold scope options = .declined reason := by
  refine ⟨fold_declined_iff typed verified options, fun arguments nonempty constants =>
    ⟨fun bits computed => ?_, fun reason failed => ?_⟩⟩
  · have other : operation.kind ≠ .constant :=
      fun constant => nonempty (Operation.operands_of_constant verified constant)
    obtain ⟨replacement, folded, constant⟩ :=
      fold_of_constants typed verified constants computed other options
    obtain rfl | ⟨value, member, rfl, known⟩ :=
      (fold_drawnFrom folded).constant_or_operand constant
    · exact .inl folded
    · exact .inr ⟨value, member, known, folded⟩
  · rw [← Scope.constants?_eq_some_iff] at constants
    exact (fold_declined_iff typed verified options reason).mpr
      (dividesByConstantZero_of_failed (accepts_constants typed verified constants) strict
        constants failed)

/-- Among the numbers, a quotient by zero is declined, and a sum wraps around. -/
theorem fold_agrees_with_evaluation_numbers :
    let byte : BitType := ⟨8, by decide⟩
    let quotient : Operation := ⟨.div, [.input 0, .result 0], .none, byte⟩
    let sum : Operation := ⟨.add, [.result 200, .result 100], .none, byte⟩
    (Scope.numbers byte).Typed ∧ quotient.verify (.numbers byte) {} = .ok () ∧
      sum.verify (.numbers byte) {} = .ok () ∧
      quotient.fold (.numbers byte) {} = .declined (.bits .divisionByZero) ∧
      (sum.fold (.numbers byte) {} = .folded (.constant ⟨8, by decide, 44⟩) ∨
        ∃ value ∈ sum.operands, (Scope.numbers byte).constant? value = some ⟨8, by decide, 44⟩ ∧
          sum.fold (.numbers byte) {} = .folded (.existing value)) := by
  intro byte quotient sum
  have typed := Scope.typed_numbers byte
  have first : quotient.verify (.numbers byte) {} = .ok () := rfl
  have second : sum.verify (.numbers byte) {} = .ok () := rfl
  refine ⟨typed, first, second, ?_, ?_⟩
  · exact ((fold_agrees_with_evaluation typed first (by decide) {}).1 _).mpr
      ⟨rfl, .inl rfl, by decide⟩
  · have constants : List.Forall₂
        (fun value bits => (Scope.numbers byte).constant? value = some bits) sum.operands
        [⟨8, by decide, 200⟩, ⟨8, by decide, 100⟩] :=
      .cons (by decide) (.cons (by decide) .nil)
    exact ((fold_agrees_with_evaluation typed second (by decide) {}).2 _ (by decide)
      constants).1 _ (by decide)

end BitGraph
