/-
This file says which graphs can arise: those that start out empty and are then
changed by edits and by passes, whether these go through or are refused. Any
edit counts, so a history may well lead to a graph whose operations read each
other in a circle.
-/

import BitGraph.Graph.Dependence
import BitGraph.Simplify.Run

namespace BitGraph.Graph

/-- One edit or one pass leads from a graph to another. -/
inductive Step (graph : Graph) : Graph → Prop where
  | addInput (name : String) (type : BitType) : Step graph (graph.addInput name type).2
  | addOutput (name : String) (value : Value) : Step graph (graph.addOutput name value).state
  | insert (operation : Operation) : Step graph (graph.insert operation).state
  | build (blueprint : Blueprint) : Step graph (graph.build blueprint).state
  | materialize (replacement : Replacement) : Step graph (graph.materialize replacement).state
  | replaceUses (source target : Value) : Step graph (graph.replaceUses source target).state
  | erase (id : Nat) : Step graph (graph.erase id).state
  | replace (id : Nat) (replacement : Replacement) : Step graph (graph.replace id replacement).state
  | pass (pass : Pass) (session : Session) : Step graph (pass.run ⟨graph, session⟩).state.graph
  | simplify (plan : Plan) (sink : Sink) : Step graph (graph.simplify plan sink).state.graph

/-- A history leads from one graph to another. -/
inductive Leads (start : Graph) : Graph → Prop where
  | start : Leads start start
  | step {graph next : Graph} (before : Leads start graph) (step : graph.Step next) :
    Leads start next

/-- A graph that can arise. -/
def Reachable (graph : Graph) : Prop :=
  ∃ strictness : Strictness, Leads { strictness } graph

/-- A graph that was put together by declaring, building and storing alone. -/
inductive Assembled : Graph → Prop where
  | empty (strictness : Strictness) : Assembled { strictness }
  | addInput {graph : Graph} (before : Assembled graph) (name : String) (type : BitType) :
    Assembled (graph.addInput name type).2
  | addOutput {graph : Graph} (before : Assembled graph) (name : String) (value : Value) :
    Assembled (graph.addOutput name value).state
  | insert {graph : Graph} (before : Assembled graph) (operation : Operation) :
    Assembled (graph.insert operation).state
  | build {graph : Graph} (before : Assembled graph) (blueprint : Blueprint) :
    Assembled (graph.build blueprint).state
  | materialize {graph : Graph} (before : Assembled graph) (replacement : Replacement) :
    Assembled (graph.materialize replacement).state

theorem Leads.trans {start middle final : Graph} (first : Leads start middle)
    (second : Leads middle final) : Leads start final := by
  induction second with
  | start => exact first
  | step _ step inductionHypothesis => exact .step inductionHypothesis step

/-- What holds of empty graphs and is kept by each step holds of every graph that can arise. -/
theorem Reachable.induct {holds : Graph → Prop}
    (empty : ∀ strictness : Strictness, holds { strictness })
    (kept : ∀ graph next : Graph, holds graph → graph.Step next → holds next)
    {graph : Graph} (reachable : graph.Reachable) : holds graph := by
  obtain ⟨strictness, leads⟩ := reachable
  induction leads with
  | start => exact empty strictness
  | step _ step inductionHypothesis => exact kept _ _ inductionHypothesis step

end BitGraph.Graph
