/-
This file evaluates graphs. Given patterns for the inputs, the operations are
evaluated in order and their results, failures among them, are kept; an output
then has the result of the value that drives it. A division by zero therefore
fails only the outputs that depend on it.
-/

import BitGraph.Evaluation
import BitGraph.Graph.Order

namespace BitGraph

/-- The patterns of the inputs that are given. -/
abbrev Assignment : Type :=
  Nat → Option Bits

/-- What an assignment gives for an input. -/
def Assignment.valueOf (assignment : Assignment) (index : Nat) : Except GraphError Bits :=
  match assignment index with
  | some bits => .ok bits
  | none => .error (.unknownValue (.input index))

/-- The results of operations, by number. -/
abbrev Results : Type :=
  List (Nat × Except GraphError Bits)

/-- The result of a value. -/
def Results.valueOf (results : Results) (assignment : Assignment) :
    Value → Except GraphError Bits
  | .input index => assignment.valueOf index
  | .result id => (results.lookup id).getD (.error (.unknownValue (.result id)))

namespace Graph

/-- Evaluate one operation on the results so far. The first operand that has none decides the
error. -/
def evaluateNext (graph : Graph) (assignment : Assignment) (results : Results) (id : Nat) :
    Results :=
  match graph.operation? id with
  | some operation =>
    (id, (operation.operands.mapM (results.valueOf assignment)).bind operation.evaluate) :: results
  | none => results

/-- The results of all live operations. -/
def results (graph : Graph) (assignment : Assignment) : Except GraphError Results :=
  graph.order.map (·.foldl (graph.evaluateNext assignment) [])

/-- The patterns of the outputs, or the first output's error. -/
def evaluate (graph : Graph) (assignment : Assignment) : Except GraphError (List Bits) :=
  (graph.results assignment).bind fun results =>
    graph.outputValues.mapM (results.valueOf assignment)

end Graph

end BitGraph
