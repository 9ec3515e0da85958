/-
This file judges whole graphs: every live operation that is not well formed is
reported as an error, and so is a circle of operations that read each other.
-/

import BitGraph.Diagnostic.Sink
import BitGraph.Graph.Order
import BitGraph.Simplify.Codes
import BitGraph.Typing

namespace BitGraph

/-- The report about an error at an operation. -/
def GraphError.diagnostic (reason : GraphError) (id : Nat) (notes : List String) : Diagnostic :=
  ⟨.error, reason.code, reason.message, some id, notes, []⟩

namespace Graph

/-- The report about an operation that is not well formed. -/
def complaint? (graph : Graph) (strictness : Strictness) (id : Nat) : Option Diagnostic :=
  match graph.operation? id with
  | none => none
  | some operation =>
    match operation.verify graph.scope strictness with
    | .ok () => none
    | .error reason => some (reason.diagnostic id [operation.render])

/-- The report about operations that read each other in a circle. -/
def circle? (graph : Graph) : Option Diagnostic :=
  match graph.order with
  | .error (.cyclic id) => some ((GraphError.cyclic id).diagnostic id [])
  | .error _ | .ok _ => none

/-- Everything that is wrong with a graph: first its operations in order, then a circle. -/
def complaints (graph : Graph) (strictness : Strictness) : List Diagnostic :=
  graph.liveIds.filterMap (graph.complaint? strictness) ++ graph.circle?.toList

/-- Report everything that is wrong with a graph, and say whether that is nothing. -/
def audit (graph : Graph) (strictness : Strictness) (sink : Sink) : Bool × Sink :=
  let complaints := graph.complaints strictness
  (complaints.isEmpty, sink.emitAll complaints)

end Graph

end BitGraph
