/-
This file arranges the live operations of a graph so that each follows the
operations it reads. Operations are placed one at a time, and each time the one
with the least number among those that can be placed is taken, so the order of
the numbers is kept wherever it is already such an arrangement. If operations
remain of which none can be placed, they read each other in a circle.
-/

import BitGraph.Error
import BitGraph.Graph.Basic

namespace BitGraph.Graph

/-- Whether an operation reads none of those that still wait to be placed. -/
def ready (graph : Graph) (waiting : List Nat) (id : Nat) : Bool :=
  (graph.producers id).all fun producer => !waiting.contains producer

/-- Place the waiting operations. -/
def arrange (graph : Graph) (waiting : List Nat) : Except GraphError (List Nat) :=
  match found : waiting.find? (graph.ready waiting) with
  | some id =>
    have : (waiting.erase id).length < waiting.length := by
      have member := List.mem_of_find?_eq_some found
      rw [List.length_erase_of_mem member]
      exact Nat.sub_lt (List.length_pos_of_mem member) Nat.one_pos
    (graph.arrange (waiting.erase id)).map (id :: ·)
  | none =>
    match waiting with
    | [] => .ok []
    | stuck :: _ => .error (.cyclic stuck)
termination_by waiting.length

/-- The live operations, each after those it reads. -/
def order (graph : Graph) : Except GraphError (List Nat) :=
  graph.arrange graph.liveIds

/-! ### What the outputs need -/

/-- Follow the operations that are still to be visited to the ones they read, and keep those
that are never met. -/
def unvisited (graph : Graph) (remaining agenda : List Nat) : List Nat :=
  match agenda with
  | [] => remaining
  | id :: rest =>
    if member : id ∈ remaining then
      have : (remaining.erase id).length < remaining.length := by
        rw [List.length_erase_of_mem member]
        exact Nat.sub_lt (List.length_pos_of_mem member) Nat.one_pos
      graph.unvisited (remaining.erase id) (graph.producers id ++ rest)
    else
      graph.unvisited remaining rest
termination_by (remaining.length, agenda.length)

/-- The live operations that no output depends on. -/
def unneeded (graph : Graph) : List Nat :=
  graph.unvisited graph.liveIds (graph.outputValues.filterMap Value.producer?)

end BitGraph.Graph
