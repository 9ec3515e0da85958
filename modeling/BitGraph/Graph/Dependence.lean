/-
This file says when one value of a graph depends on another: a result depends
on what its operation reads, and on everything that this depends on. Only live
operations count. A graph is acyclic when no result depends on itself, and the
operations it needs are those that its outputs depend on.
-/

import BitGraph.Graph.Basic

namespace BitGraph.Graph

/-- The live operation of a number reads a value. -/
def Reads (graph : Graph) (id : Nat) (value : Value) : Prop :=
  ∃ operation, graph.operation? id = some operation ∧ value ∈ operation.operands

/-- One value depends on another, through the operands of one or more live operations. -/
inductive DependsOn (graph : Graph) : Value → Value → Prop where
  /-- The operation that produces a value reads the other one. -/
  | direct {id : Nat} {source : Value} (reads : graph.Reads id source) :
    DependsOn graph (.result id) source
  /-- The operation that produces a value reads one that depends on the other. -/
  | through {id : Nat} {middle source : Value} (reads : graph.Reads id middle)
    (rest : DependsOn graph middle source) : DependsOn graph (.result id) source

/-- No operation reads its own result, at once or through others. -/
def Acyclic (graph : Graph) : Prop :=
  ∀ id, ¬ graph.DependsOn (.result id) (.result id)

/-- An output has the result of an operation as its value or depends on it. -/
def Needs (graph : Graph) (id : Nat) : Prop :=
  ∃ value ∈ graph.outputValues, value = .result id ∨ graph.DependsOn value (.result id)

/-- An arrangement of the live operations: each stands in it once, behind all it reads. -/
structure Arrangement (graph : Graph) (ids : List Nat) : Prop where
  perm : ids.Perm graph.liveIds
  /-- An operation is not read by one that stands before it. -/
  behind : ids.Pairwise fun earlier later => ¬ graph.Reads earlier (.result later)
  /-- An operation does not read itself. -/
  apart : ∀ id ∈ ids, ¬ graph.Reads id (.result id)

/-! ### Dependence -/

theorem DependsOn.trans {graph : Graph} {reader middle source : Value}
    (first : graph.DependsOn reader middle) (second : graph.DependsOn middle source) :
    graph.DependsOn reader source := by
  induction first with
  | direct reads => exact .through reads second
  | through reads _ inductionHypothesis => exact .through reads (inductionHypothesis second)

/-- Only results of live operations depend on anything. -/
theorem DependsOn.exists_reads {graph : Graph} {reader source : Value}
    (depends : graph.DependsOn reader source) :
    ∃ id middle, reader = .result id ∧ graph.Reads id middle := by
  cases depends with
  | direct reads => exact ⟨_, _, rfl, reads⟩
  | through reads _ => exact ⟨_, _, rfl, reads⟩

theorem Reads.isLive {graph : Graph} {id : Nat} {value : Value} (reads : graph.Reads id value) :
    graph.isLive id = true := by
  obtain ⟨operation, found, _⟩ := reads
  unfold operation? at found
  obtain ⟨node, kept, _⟩ := Option.map_eq_some_iff.mp found
  obtain ⟨stored, live⟩ := Option.filter_eq_some_iff.mp kept
  unfold Graph.isLive
  rw [stored]
  exact live

end BitGraph.Graph
