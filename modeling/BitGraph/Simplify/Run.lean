/-
This file repeats the passes of a plan until none of them changes anything, or
until they have been made as often as the plan allows. A pass that is refused
ends the run; the graph keeps what was done before.
-/

import BitGraph.Simplify.Pass

namespace BitGraph

/-- What a run did. -/
structure RunSummary where
  /-- How often the passes were made. -/
  iterations : Nat
  /-- The last time the passes were made they changed nothing. -/
  converged : Bool
  /-- How many changes were made. -/
  changes : Nat
  /-- How many operations were live before the run. -/
  liveBefore : Nat
  /-- How many operations are live after it. -/
  liveAfter : Nat
  deriving DecidableEq, Repr

namespace Workspace

/-- Make passes one after the other, and say whether one of them changed anything. -/
def runPasses : List Pass → Workspace → Attempt Workspace Bool
  | [], work => .succeed false work
  | pass :: rest, work =>
    (pass.run work).andThen fun changed work =>
      (runPasses rest work).andThen fun more work => .succeed (changed || more) work

/-- Repeat passes until they change nothing, but not more often than given. The result is how
often they were made, and whether the last time changed nothing. -/
def iterate (passes : List Pass) : Nat → Workspace → Attempt Workspace (Nat × Bool)
  | 0, work => .succeed (0, false) work
  | remaining + 1, work =>
    (runPasses passes work).andThen fun changed work =>
      if changed then
        (iterate passes remaining work).andThen fun (iterations, converged) work =>
          .succeed (iterations + 1, converged) work
      else
        .succeed (1, true) work

end Workspace

/-- Simplify a graph. Diagnostics go to the sink. -/
def Graph.simplify (graph : Graph) (plan : Plan) (sink : Sink) : Attempt Workspace RunSummary :=
  let work : Workspace := ⟨graph, { plan, sink }⟩
  (work.iterate plan.passes plan.maxIterations).andThen fun (iterations, converged) after =>
    .succeed
      ⟨iterations, converged, after.session.changes, graph.liveCount, after.graph.liveCount⟩ after

/-- Simplify several graphs, each on its own, with one sink for all diagnostics. An error in
one graph does not keep the others from being simplified. -/
def simplifyAll (plan : Plan) :
    List Graph → Sink → List (Except GraphError RunSummary × Graph) × Sink
  | [], sink => ([], sink)
  | graph :: rest, sink =>
    let attempt := graph.simplify plan sink
    let (others, final) := simplifyAll plan rest attempt.state.session.sink
    ((attempt.result, attempt.state.graph) :: others, final)

end BitGraph
