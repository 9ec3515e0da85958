/-
This file proves that the steps of a routine, taken with nothing in between, are the
simplification that it was cut from, whatever the graph and the sink.
-/

import BitGraph.Simplify.Turns

namespace BitGraph

/-! ### Running -/

namespace Routine

variable {State Result Next : Type}

theorem run_look (next : State → Routine State Result) (state : State) :
    (look next).run state = (next state).run state := rfl

theorem run_andThen (routine : Routine State Result) (next : Result → Routine State Next)
    (state : State) :
    (routine.andThen next).run state =
      (routine.run state).andThen fun result state => (next result).run state := by
  induction routine generalizing state with
  | ended result => cases result <;> rfl
  | step move rest inductionHypothesis => exact inductionHypothesis state (move state)

end Routine

/-! ### Each routine is what it was cut from -/

namespace Workspace

theorem run_walkRoutine (visit : Nat → Workspace → Attempt Workspace Bool) (ids : List Nat)
    (work : Workspace) : (walkRoutine visit ids).run work = walk visit ids work := by
  induction ids generalizing work with
  | nil => rfl
  | cons id rest inductionHypothesis =>
    simp only [walkRoutine, walk, Routine.run_andThen, inductionHypothesis]
    rfl

/-- Merging is visiting one operation after the other. -/
theorem mergeWalk_cons_eq (id : Nat) (rest : List Nat) (met : List (Operation × Nat))
    (work : Workspace) :
    mergeWalk (id :: rest) met work =
      (mergeStep id met work).andThen fun (changed, met) work =>
        (mergeWalk rest met work).andThen fun more work => .succeed (changed || more) work := by
  rw [mergeWalk, mergeStep]
  cases stored : work.graph.stored? id with
  | none => exact (Attempt.andThen_succeed _).symm
  | some operation =>
    cases known : met.lookup operation with
    | none =>
      simp only [known]
      exact (Attempt.andThen_succeed _).symm
    | some first =>
      simp only [known, Attempt.andThen_assoc, Attempt.succeed_andThen, Bool.true_or]

theorem run_mergeRoutine (ids : List Nat) (met : List (Operation × Nat)) (work : Workspace) :
    (mergeRoutine ids met).run work = mergeWalk ids met work := by
  induction ids generalizing met work with
  | nil => rfl
  | cons id rest inductionHypothesis =>
    rw [mergeWalk_cons_eq]
    simp only [mergeRoutine, Routine.run_andThen, inductionHypothesis]
    rfl

end Workspace

theorem Pass.run_routine (pass : Pass) (work : Workspace) :
    pass.routine.run work = pass.run work := by
  rw [Pass.routine, Pass.run, Routine.run_look]
  cases work.graph.order with
  | error reason => rfl
  | ok order =>
    cases pass with
    | fold => exact Workspace.run_walkRoutine _ _ _
    | canonicalize => exact Workspace.run_walkRoutine _ _ _
    | merge => exact Workspace.run_mergeRoutine _ _ _
    | sweep => exact Workspace.run_walkRoutine _ _ _

namespace Workspace

theorem run_passesRoutine (passes : List Pass) (work : Workspace) :
    (passesRoutine passes).run work = runPasses passes work := by
  induction passes generalizing work with
  | nil => rfl
  | cons pass rest inductionHypothesis =>
    simp only [passesRoutine, runPasses, Routine.run_andThen, Pass.run_routine,
      inductionHypothesis]
    rfl

theorem run_iterateRoutine (passes : List Pass) (remaining : Nat) (work : Workspace) :
    (iterateRoutine passes remaining).run work = iterate passes remaining work := by
  induction remaining generalizing work with
  | zero => rfl
  | succ remaining inductionHypothesis =>
    rw [iterateRoutine, iterate, Routine.run_andThen, run_passesRoutine]
    congr 1
    funext changed after
    cases changed with
    | false => rfl
    | true =>
      rw [if_pos rfl, if_pos rfl, Routine.run_andThen, inductionHypothesis]
      rfl

end Workspace

/-- Taking all steps of a simplification is simplifying. -/
theorem Graph.run_routine (graph : Graph) (plan : Plan) (sink : Sink) :
    (graph.routine plan).run ⟨graph, { plan, sink }⟩ = graph.simplify plan sink := by
  rw [Graph.routine, Graph.simplify, Routine.run_andThen, Workspace.run_iterateRoutine]
  rfl

end BitGraph
