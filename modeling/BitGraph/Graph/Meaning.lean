/-
This file says what the values of a graph denote, without an order of
evaluation: an input denotes the pattern it is given, and the result of a live
operation denotes what the operation computes from what its operands denote. An
error is denoted like a pattern, and the first operand that denotes one decides
the error of the operation. What a value denotes is unique.
-/

import BitGraph.Graph.Run

namespace BitGraph

/-- The assignment gives each declared input a pattern of its type. -/
def Assignment.Fits (assignment : Assignment) (graph : Graph) : Prop :=
  ∀ index type, graph.typeOf (.input index) = some type →
    ∃ bits, assignment index = some bits ∧ bits.width = type.width

/-- What an operation makes of the results of its operands. -/
def Operation.combine (operation : Operation) (arguments : List (Except GraphError Bits)) :
    Except GraphError Bits :=
  (arguments.mapM id).bind operation.evaluate

namespace Graph

/-- The result that a value denotes under an assignment. -/
inductive Denotes (graph : Graph) (assignment : Assignment) :
    Value → Except GraphError Bits → Prop where
  | input (index : Nat) : Denotes graph assignment (.input index) (assignment.valueOf index)
  | result {id : Nat} {operation : Operation} {arguments : List (Except GraphError Bits)}
    (found : graph.operation? id = some operation)
    (sameLength : arguments.length = operation.operands.length)
    (each : ∀ (index : Nat) value argument, operation.operands[index]? = some value →
      arguments[index]? = some argument → Denotes graph assignment value argument) :
    Denotes graph assignment (.result id) (operation.combine arguments)

/-- A value denotes one result at most. -/
theorem Denotes.unique {graph : Graph} {assignment : Assignment} {value : Value}
    {first second : Except GraphError Bits} (left : graph.Denotes assignment value first)
    (right : graph.Denotes assignment value second) : first = second := by
  induction left generalizing second with
  | input index =>
    cases right
    rfl
  | @result id operation arguments found sameLength each inductionHypothesis =>
    cases right with
    | @result _ operation' arguments' found' sameLength' each' =>
      have sameOperation : operation = operation' := Option.some.inj (found.symm.trans found')
      subst sameOperation
      have sameArguments : arguments = arguments' := by
        refine List.ext_getElem (sameLength.trans sameLength'.symm) fun index here there => ?_
        have inside : index < operation.operands.length := sameLength ▸ here
        exact inductionHypothesis index _ _ (List.getElem?_eq_getElem inside)
          (List.getElem?_eq_getElem here)
          (each' index _ _ (List.getElem?_eq_getElem inside) (List.getElem?_eq_getElem there))
      rw [sameArguments]

end Graph

end BitGraph
