/-
This file proves that a simplification is discreet: no step looks at the sink at hand,
and a step reports at most one thing to it. So what a simplification does, and what it
reports, does not depend on what else there is in the sink.
-/

import BitGraph.Proofs.Simplify.Routines

namespace BitGraph

variable {Result Next : Type}

/-! ### Sinks at hand -/

namespace Workspace

@[simp] theorem graph_onto (work : Workspace) (sink : Sink) :
    (work.onto sink).graph = work.graph := rfl

@[simp] theorem plan_onto (work : Workspace) (sink : Sink) :
    (work.onto sink).session.plan = work.session.plan := rfl

@[simp] theorem sink_onto (work : Workspace) (sink : Sink) :
    (work.onto sink).session.sink = sink := rfl

@[simp] theorem onto_onto (work : Workspace) (first second : Sink) :
    (work.onto first).onto second = work.onto second := rfl

end Workspace

/-- An attempt does not look at the sink at hand, and reports at most one thing to it. -/
def Discreet (attempt : Workspace → Attempt Workspace Result) : Prop :=
  ∀ work : Workspace, ∃ result, ∃ after : Workspace, ∃ report : Option Diagnostic, ∀ sink,
    attempt (work.onto sink) = ⟨result, after.onto (sink.emitAll report.toList)⟩

/-! ### Visits -/

namespace Workspace

/-- A change is counted, and reported at most. -/
theorem record_onto (work : Workspace) (code : Code) (id : Nat) (message : String) :
    ∃ after : Workspace, ∃ report : Option Diagnostic, ∀ sink,
      (work.onto sink).record code id message = after.onto (sink.emitAll report.toList) := by
  cases trace : work.session.plan.trace with
  | false =>
    refine ⟨⟨work.graph, { work.session with changes := work.session.changes + 1 }⟩, none,
      fun sink => ?_⟩
    simp only [record, Session.record, plan_onto, trace]
    rfl
  | true =>
    refine ⟨⟨work.graph, { work.session with changes := work.session.changes + 1 }⟩,
      some ⟨.note, code, message, some id, [], []⟩, fun sink => ?_⟩
    simp only [record, Session.record, plan_onto, trace]
    rfl

/-- An edit of the graph that is counted if it goes through. -/
theorem discreet_edit_record {Edited : Type} (change : Graph → Attempt Graph Edited)
    (result : Result) (code : Code) (id : Nat) (message : Graph → String) :
    Discreet fun work => (work.edit change).andThen fun _ after =>
      .succeed result (after.record code id (message after.graph)) := by
  intro work
  cases changed : change work.graph with
  | mk outcome graph =>
    have edited : ∀ sink, (work.onto sink).edit change =
        ⟨outcome, (⟨graph, work.session⟩ : Workspace).onto sink⟩ := by
      intro sink
      rw [edit, graph_onto, changed]
      rfl
    cases outcome with
    | error reason =>
      refine ⟨.error reason, ⟨graph, work.session⟩, none, fun sink => ?_⟩
      simp only [edited]
      rfl
    | ok _ =>
      obtain ⟨after, report, recorded⟩ := record_onto ⟨graph, work.session⟩ code id (message graph)
      refine ⟨.ok result, after, report, fun sink => ?_⟩
      simp only [edited, Attempt.andThen, graph_onto, recorded]
      rfl

/-- Two edits in a row are one. -/
theorem edit_andThen {First Second : Type} (work : Workspace)
    (first : Graph → Attempt Graph First) (second : Graph → Attempt Graph Second)
    (next : Second → Workspace → Attempt Workspace Next) :
    ((work.edit first).andThen fun _ work => (work.edit second).andThen next) =
      (work.edit fun graph => (first graph).andThen fun _ graph => second graph).andThen next := by
  cases moved : first work.graph with
  | mk outcome graph => cases outcome <;> simp only [edit, moved, Attempt.within, Attempt.andThen,
      Attempt.fail]

theorem discreet_replace (id : Nat) (replacement : Replacement) (code : Code) (message : String) :
    Discreet fun work => work.replace id replacement code message :=
  discreet_edit_record _ true code id fun _ => message

theorem discreet_foldStep (id : Nat) : Discreet (foldStep id) := by
  intro work
  simp only [foldStep, graph_onto, plan_onto]
  cases found : work.graph.operation? id with
  | none => exact ⟨.ok false, work, none, fun _ => rfl⟩
  | some operation =>
    simp only
    cases proposed : operation.fold work.graph.scope work.session.plan.folding with
    | folded replacement => exact discreet_replace id replacement .folded _ work
    | unchanged => exact ⟨.ok false, work, none, fun _ => rfl⟩
    | declined reason =>
      simp only
      cases zero : reason.isDivisionByZero with
      | false => exact ⟨.ok false, work, none, fun _ => rfl⟩
      | true =>
        by_cases warned : id ∈ work.session.warned
        · refine ⟨.ok false, work, none, fun sink => ?_⟩
          have again : id ∈ (work.onto sink).session.warned := warned
          rw [if_pos rfl, Session.warnOnce, if_pos again]
          rfl
        · refine ⟨.ok false,
            ⟨work.graph, { work.session with warned := id :: work.session.warned }⟩,
            some { divisionWarning operation with op := some id }, fun sink => ?_⟩
          have new : id ∉ (work.onto sink).session.warned := warned
          rw [if_pos rfl, Session.warnOnce, if_neg new]
          rfl

theorem discreet_canonicalizeStep (id : Nat) : Discreet (canonicalizeStep id) := by
  intro work
  simp only [canonicalizeStep, graph_onto]
  cases found : work.graph.operation? id with
  | none => exact ⟨.ok false, work, none, fun _ => rfl⟩
  | some operation =>
    simp only
    cases proposed : operation.canonicalize work.graph.scope with
    | none => exact ⟨.ok false, work, none, fun _ => rfl⟩
    | some replacement => exact discreet_replace id replacement .canonicalized _ work

theorem discreet_mergeStep (id : Nat) (met : List (Operation × Nat)) :
    Discreet (mergeStep id met) := by
  intro work
  simp only [mergeStep, graph_onto, edit_andThen]
  cases stored : work.graph.stored? id with
  | none => exact ⟨.ok (false, met), work, none, fun _ => rfl⟩
  | some operation =>
    simp only
    cases known : met.lookup operation with
    | none => exact ⟨.ok (false, (operation, id) :: met), work, none, fun _ => rfl⟩
    | some first =>
      exact discreet_edit_record _ (true, met) .merged id
        (fun _ => "merged into %" ++ Numeral.write 10 first) work

theorem discreet_eraseStep (id : Nat) : Discreet (eraseStep id) :=
  discreet_edit_record _ true .erased id fun graph =>
    "erased unused " ++ ((graph.stored? id).map (·.kind.name)).getD ""

end Workspace

/-! ### Routines -/

/-- No step of a routine looks at the sink at hand or reports more than one thing to it. -/
inductive Routine.Discreet : Routine Workspace Result → Prop where
  | ended (result : Except GraphError Result) : Discreet (.ended result)
  | step {move : Workspace → Workspace} {next : Workspace → Routine Workspace Result}
    (moves : ∀ work : Workspace, ∃ after : Workspace, ∃ report : Option Diagnostic, ∀ sink,
      move (work.onto sink) = after.onto (sink.emitAll report.toList))
    (same : ∀ work sink, next (work.onto sink) = next work)
    (later : ∀ work, (next work).Discreet) : Discreet (.step move next)

namespace Routine

theorem discreet_once {attempt : Workspace → Attempt Workspace Result}
    (discreet : BitGraph.Discreet attempt) : (once attempt).Discreet := by
  refine .step (fun work => ?_) (fun work sink => ?_) fun work => .ended _
  · obtain ⟨_, after, report, made⟩ := discreet work
    exact ⟨after, report, fun sink => by rw [made]⟩
  · obtain ⟨result, after, report, made⟩ := discreet work
    have here : attempt work = ⟨result, after.onto (work.session.sink.emitAll report.toList)⟩ :=
      made work.session.sink
    rw [made, here]

theorem discreet_look {next : Workspace → Routine Workspace Result}
    (same : ∀ work sink, next (work.onto sink) = next work)
    (later : ∀ work, (next work).Discreet) : (look next).Discreet :=
  .step (fun work => ⟨work, none, fun _ => rfl⟩) same later

theorem Discreet.andThen {routine : Routine Workspace Result}
    {next : Result → Routine Workspace Next} (discreet : routine.Discreet)
    (later : ∀ result, (next result).Discreet) : (routine.andThen next).Discreet := by
  induction discreet with
  | ended result =>
    cases result with
    | error reason => exact .ended _
    | ok result => exact later result
  | step moves same _ inductionHypothesis =>
    exact .step moves (fun work sink => congrArg (Routine.andThen · next) (same work sink))
      inductionHypothesis

end Routine

namespace Workspace

theorem discreet_walkRoutine {visit : Nat → Workspace → Attempt Workspace Bool}
    (discreet : ∀ id, Discreet (visit id)) (ids : List Nat) :
    (walkRoutine visit ids).Discreet := by
  induction ids with
  | nil => exact .ended _
  | cons id rest inductionHypothesis =>
    exact (Routine.discreet_once (discreet id)).andThen fun _ =>
      inductionHypothesis.andThen fun _ => .ended _

theorem discreet_mergeRoutine (ids : List Nat) (met : List (Operation × Nat)) :
    (mergeRoutine ids met).Discreet := by
  induction ids generalizing met with
  | nil => exact .ended _
  | cons id rest inductionHypothesis =>
    exact (Routine.discreet_once (discreet_mergeStep id met)).andThen fun (_, met) =>
      (inductionHypothesis met).andThen fun _ => .ended _

end Workspace

theorem Pass.discreet_routine (pass : Pass) : pass.routine.Discreet := by
  refine Routine.discreet_look (fun _ _ => rfl) fun work => ?_
  cases work.graph.order with
  | error reason => exact .ended _
  | ok order =>
    cases pass with
    | fold => exact Workspace.discreet_walkRoutine Workspace.discreet_foldStep _
    | canonicalize => exact Workspace.discreet_walkRoutine Workspace.discreet_canonicalizeStep _
    | merge => exact Workspace.discreet_mergeRoutine _ _
    | sweep => exact Workspace.discreet_walkRoutine Workspace.discreet_eraseStep _

namespace Workspace

theorem discreet_passesRoutine (passes : List Pass) : (passesRoutine passes).Discreet := by
  induction passes with
  | nil => exact .ended _
  | cons pass rest inductionHypothesis =>
    exact pass.discreet_routine.andThen fun _ => inductionHypothesis.andThen fun _ => .ended _

theorem discreet_iterateRoutine (passes : List Pass) (remaining : Nat) :
    (iterateRoutine passes remaining).Discreet := by
  induction remaining with
  | zero => exact .ended _
  | succ remaining inductionHypothesis =>
    refine (discreet_passesRoutine passes).andThen fun changed => ?_
    cases changed with
    | false => exact .ended _
    | true => exact inductionHypothesis.andThen fun _ => .ended _

end Workspace

/-- A simplification is discreet. -/
theorem Graph.discreet_routine (graph : Graph) (plan : Plan) : (graph.routine plan).Discreet :=
  (Workspace.discreet_iterateRoutine _ _).andThen fun _ =>
    Routine.discreet_look (fun _ _ => rfl) fun _ => .ended _

end BitGraph
