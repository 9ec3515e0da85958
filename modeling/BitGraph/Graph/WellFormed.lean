/-
This file says when the parts of a graph fit together: the list of places that
read a value holds exactly those places, each once; live operations and outputs
read only values that exist; and every live operation is well formed under the
graph's own strictness. The empty graph fits together.
-/

import BitGraph.Graph.Basic
import BitGraph.Typing

namespace BitGraph.Graph

/-- The value that a place reads: an operand of a live operation, or what drives an output. -/
def readAt? (graph : Graph) : Use → Option Value
  | .operand id index => (graph.operation? id).bind fun operation => operation.operands[index]?
  | .output index => (graph.outputs.get? index).map Output.value

/-- The parts of a graph fit together. -/
structure WellFormed (graph : Graph) : Prop where
  /-- The list of places that read a value holds none of them twice. -/
  nodup_uses : ∀ value, (graph.uses value).Nodup
  /-- It holds the places that read the value, and no others. -/
  mem_uses_iff : ∀ value use, use ∈ graph.uses value ↔ graph.readAt? use = some value
  /-- What is read exists. -/
  holds_of_readAt? : ∀ use value, graph.readAt? use = some value → graph.holds value = true
  /-- Live operations are well formed. -/
  verified : ∀ id operation, graph.operation? id = some operation →
    operation.verify graph.scope graph.strictness = .ok ()

/-- The graph without inputs, operations and outputs. -/
theorem wellFormed_empty (strictness : Strictness) : WellFormed { strictness } where
  nodup_uses value := by
    cases value <;> exact List.nodup_nil
  mem_uses_iff value use := by
    cases value <;> cases use <;> simp [uses, readAt?, operation?]
  holds_of_readAt? use value read := by
    cases use <;> simp [readAt?, operation?] at read
  verified id operation found := by
    simp [operation?] at found

end BitGraph.Graph
