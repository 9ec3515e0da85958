/-
This file lets several simplifications take turns. Each of them is cut into steps, and a
step visits one operation, so it makes at most one report. The simplifications share a
sink and nothing else: a schedule says whose turn it is, and whoever has it is handed the
sink, takes one step, and hands the sink on. To simplify several graphs one after the
other is one schedule among many; any other order in which reports can reach the sink is
another one.
-/

import BitGraph.Simplify.Run

namespace BitGraph

/-! ### Routines -/

/-- What is still to be done to a state, step by step. -/
inductive Routine (State Result : Type) where
  /-- Nothing is left to be done, and this came of it. -/
  | ended (result : Except GraphError Result)
  /-- A step, and what is to be done after it if it is taken in a given state. -/
  | step (move : State → State) (next : State → Routine State Result)

namespace Routine

variable {State Result Next : Type}

/-- An attempt, made in one step. -/
def once (attempt : State → Attempt State Result) : Routine State Result :=
  .step (fun state => (attempt state).state) fun state => .ended (attempt state).result

/-- Look at the state to find out what is to be done. -/
def look (next : State → Routine State Result) : Routine State Result :=
  .step id next

/-- Go on from a result; a refusal ends the whole. -/
def andThen (routine : Routine State Result) (next : Result → Routine State Next) :
    Routine State Next :=
  match routine with
  | .ended (.ok result) => next result
  | .ended (.error reason) => .ended (.error reason)
  | .step move rest => .step move fun state => (rest state).andThen next

/-- Take all steps, with nothing in between. -/
def run : Routine State Result → State → Attempt State Result
  | .ended result, state => ⟨result, state⟩
  | .step move next, state => (next state).run (move state)

end Routine

/-! ### Simplifying step by step -/

namespace Workspace

/-- Visit each number in turn, and say whether one of the visits made a change. -/
def walkRoutine (visit : Nat → Workspace → Attempt Workspace Bool) :
    List Nat → Routine Workspace Bool
  | [] => .ended (.ok false)
  | id :: rest =>
    (Routine.once (visit id)).andThen fun changed =>
      (walkRoutine visit rest).andThen fun more => .ended (.ok (changed || more))

/-- Merge one operation into the first equal one among those that were met. The result is
whether there is one, and which operations have been met then. -/
def mergeStep (id : Nat) (met : List (Operation × Nat)) (work : Workspace) :
    Attempt Workspace (Bool × List (Operation × Nat)) :=
  match work.graph.stored? id with
  | none => .succeed (false, met) work
  | some operation =>
    match met.lookup operation with
    | none => .succeed (false, (operation, id) :: met) work
    | some first =>
      (work.edit (·.replaceUses (.result id) (.result first))).andThen fun _ work =>
        (work.edit (·.erase id)).andThen fun _ work =>
          .succeed (true, met)
            (work.record .merged id ("merged into %" ++ Numeral.write 10 first))

/-- Merge each operation into the first equal one met before it. -/
def mergeRoutine : List Nat → List (Operation × Nat) → Routine Workspace Bool
  | [], _ => .ended (.ok false)
  | id :: rest, met =>
    (Routine.once (mergeStep id met)).andThen fun (changed, met) =>
      (mergeRoutine rest met).andThen fun more => .ended (.ok (changed || more))

end Workspace

/-- Make a pass over a graph. -/
def Pass.routine (pass : Pass) : Routine Workspace Bool :=
  .look fun work =>
    match work.graph.order with
    | .error reason => .ended (.error reason)
    | .ok order =>
      match pass with
      | .fold => Workspace.walkRoutine Workspace.foldStep order
      | .canonicalize => Workspace.walkRoutine Workspace.canonicalizeStep order
      | .merge => Workspace.mergeRoutine order []
      | .sweep =>
        let unneeded := work.graph.unneeded
        Workspace.walkRoutine Workspace.eraseStep (order.reverse.filter (· ∈ unneeded))

namespace Workspace

/-- Make passes one after the other, and say whether one of them changed anything. -/
def passesRoutine : List Pass → Routine Workspace Bool
  | [] => .ended (.ok false)
  | pass :: rest =>
    pass.routine.andThen fun changed =>
      (passesRoutine rest).andThen fun more => .ended (.ok (changed || more))

/-- Repeat passes until they change nothing, but not more often than given. -/
def iterateRoutine (passes : List Pass) : Nat → Routine Workspace (Nat × Bool)
  | 0 => .ended (.ok (0, false))
  | remaining + 1 =>
    (passesRoutine passes).andThen fun changed =>
      if changed then
        (iterateRoutine passes remaining).andThen fun (iterations, converged) =>
          .ended (.ok (iterations + 1, converged))
      else
        .ended (.ok (1, true))

end Workspace

/-- Simplify a graph. -/
def Graph.routine (graph : Graph) (plan : Plan) : Routine Workspace RunSummary :=
  (Workspace.iterateRoutine plan.passes plan.maxIterations).andThen fun (iterations, converged) =>
    .look fun after => .ended (.ok
      ⟨iterations, converged, after.session.changes, graph.liveCount, after.graph.liveCount⟩)

/-! ### Taking turns -/

/-- The same work with another sink at hand. -/
def Workspace.onto (work : Workspace) (sink : Sink) : Workspace :=
  { work with session := { work.session with sink } }

/-- A simplification that waits for its turn. It holds all that it works with except for the
sink: the one at hand is empty until its turn comes. -/
structure Runner where
  work : Workspace
  routine : Routine Workspace RunSummary

namespace Runner

/-- A simplification that has not begun. -/
def start (plan : Plan) (graph : Graph) : Runner :=
  ⟨⟨graph, { plan, sink := {} }⟩, graph.routine plan⟩

/-- Take one step with a sink at hand, and hand the sink on. -/
def turn (runner : Runner) (sink : Sink) : Runner × Sink :=
  match runner.routine with
  | .ended _ => (runner, sink)
  | .step move next =>
    let before := runner.work.onto sink
    let after := move before
    (⟨after.onto {}, next before⟩, after.session.sink)

/-- The result, and the graph that was left behind, once all steps are taken. -/
def outcome? (runner : Runner) : Option (Except GraphError RunSummary × Graph) :=
  match runner.routine with
  | .ended result => some (result, runner.work.graph)
  | .step _ _ => none

end Runner

/-- Simplifications that share a sink. -/
structure Crew where
  runners : List Runner
  sink : Sink

namespace Crew

/-- Nothing is done yet to several graphs. -/
def start (plan : Plan) (graphs : List Graph) (sink : Sink) : Crew :=
  ⟨graphs.map (Runner.start plan), sink⟩

/-- Give one simplification a turn. -/
def turn (crew : Crew) (index : Nat) : Crew :=
  match crew.runners[index]? with
  | none => crew
  | some runner =>
    let (later, sink) := runner.turn crew.sink
    ⟨crew.runners.set index later, sink⟩

/-- Give turns as a schedule says. -/
def turns (crew : Crew) (schedule : List Nat) : Crew :=
  schedule.foldl turn crew

/-- The outcomes, once all simplifications have come to an end. -/
def outcomes? (crew : Crew) : Option (List (Except GraphError RunSummary × Graph)) :=
  crew.runners.mapM Runner.outcome?

end Crew

end BitGraph
