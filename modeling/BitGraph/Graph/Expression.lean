/-
This file unfolds the values of a graph into expressions. An expression is a
tree: inputs are its leaves, and operations its inner nodes. A value unfolds to
one expression at most, and two values that unfold to the same one are equal
ways to write the same thing.
-/

import BitGraph.Graph.Basic

namespace BitGraph

/-- An expression over inputs. -/
inductive Expression where
  /-- An input. -/
  | input (index : Nat)
  /-- An operation on expressions. -/
  | apply (kind : Kind) (operands : List Expression) (attr : Attribute) (type : BitType)

namespace Graph

/-- The expression that a value stands for. -/
inductive Unfolds (graph : Graph) : Value → Expression → Prop where
  | input (index : Nat) : Unfolds graph (.input index) (.input index)
  | result {id : Nat} {operation : Operation} {operands : List Expression}
    (found : graph.operation? id = some operation)
    (sameLength : operands.length = operation.operands.length)
    (each : ∀ (index : Nat) value expression, operation.operands[index]? = some value →
      operands[index]? = some expression → Unfolds graph value expression) :
    Unfolds graph (.result id) (.apply operation.kind operands operation.attr operation.type)

/-- A value stands for one expression at most. -/
theorem Unfolds.unique {graph : Graph} {value : Value} {first second : Expression}
    (left : graph.Unfolds value first) (right : graph.Unfolds value second) : first = second := by
  induction left generalizing second with
  | input index =>
    cases right
    rfl
  | @result id operation operands found sameLength each inductionHypothesis =>
    cases right with
    | @result _ operation' operands' found' sameLength' each' =>
      have sameOperation : operation = operation' := Option.some.inj (found.symm.trans found')
      subst sameOperation
      have sameOperands : operands = operands' := by
        refine List.ext_getElem (sameLength.trans sameLength'.symm) fun index here there => ?_
        have inside : index < operation.operands.length := sameLength ▸ here
        exact inductionHypothesis index _ _ (List.getElem?_eq_getElem inside)
          (List.getElem?_eq_getElem here)
          (each' index _ _ (List.getElem?_eq_getElem inside) (List.getElem?_eq_getElem there))
      rw [sameOperands]

end Graph

end BitGraph
