/-
This file proves that a simplification which comes to an end hands back a graph
in normal form: nothing in it can be folded or brought into another order, no
expression is there twice, and every operation is needed. The passes keep out of
each other's way only in the end: the last time they are made none of them finds
anything to do, and what one would find is not changed by the others. That no
expression is there twice takes canonical order as well as merging, since
merging alone would keep two sums apart whose terms stand in different order.
-/

import BitGraph.Proofs.Proposal.Declining
import BitGraph.Proofs.Proposal.Spelling
import BitGraph.Proofs.Simplify.Idling

namespace BitGraph.Graph

/-- A graph in which nothing is left to be simplified. -/
structure Normal (graph : Graph) (options : FoldOptions) : Prop where
  folded : ∀ id operation, graph.operation? id = some operation →
    operation.fold graph.scope options = .unchanged ∨
      operation.fold graph.scope options = .declined (.bits .divisionByZero)
  canonical : ∀ id operation, graph.operation? id = some operation →
    operation.canonicalize graph.scope = none
  distinct : ∀ first second operation other, graph.operation? first = some operation →
    graph.operation? second = some other → operation.Alike other → first = second
  needed : ∀ id, graph.isLive id = true → graph.Needs id

variable {graph : Graph} {plan : Plan}

/-- A graph is in normal form if no pass finds anything to do. -/
theorem Workable.normal (workable : graph.Workable) (idle : ∀ pass : Pass, pass.Idle plan graph) :
    graph.Normal plan.folding where
  folded id operation found := by
    have verified := workable.wellFormed.verified id operation found
    cases outcome : operation.fold graph.scope plan.folding with
    | unchanged => exact .inl rfl
    | folded replacement => exact absurd outcome (idle .fold id operation found replacement)
    | declined reason => exact .inr ((fold_declined graph.scope_typed verified outcome).1 ▸ rfl)
  canonical := idle .canonicalize
  distinct first second operation other found foundOther alike := by
    have same : operation = other := alike.eq graph.scope_typed
      (workable.wellFormed.verified first operation found)
      (workable.wellFormed.verified second other foundOther)
      (idle .canonicalize first operation found) (idle .canonicalize second other foundOther)
    exact idle .merge first second operation found (same ▸ foundOther)
  needed := idle .sweep

/-- Simplifying changes nothing if none of the passes finds anything to do. -/
theorem Workable.simplify_idle (workable : graph.Workable) (often : 1 ≤ plan.maxIterations)
    (idle : ∀ pass ∈ plan.passes, pass.Idle plan graph) (sink : Sink) :
    ∃ summary, (graph.simplify plan sink).result = .ok summary ∧ summary.iterations = 1 ∧
      summary.converged = true ∧ summary.changes = 0 ∧
      (graph.simplify plan sink).state.graph = graph := by
  have start : (⟨graph, { plan, sink }⟩ : Workspace).graph.Workable := workable
  obtain ⟨session, iterated, changes⟩ := Workspace.iterate_idle start often idle
  rw [simplify_of_iterate iterated]
  exact ⟨_, rfl, rfl, rfl, changes, rfl⟩

/-- A simplification that converges, with all passes, hands back a graph in normal form, and
simplifying it again changes nothing. -/
theorem simplify_normalizes (reachable : graph.Reachable) (acyclic : graph.Acyclic)
    (lenient : graph.strictness.minArity ≤ 2) (folds : plan.fold = true)
    (canonicalizes : plan.canonicalize = true) (merges : plan.merge = true)
    (sweeps : plan.sweep = true) (sink : Sink) {summary : RunSummary}
    (simplified : (graph.simplify plan sink).result = .ok summary)
    (converged : summary.converged = true) :
    let after := (graph.simplify plan sink).state.graph
    after.Normal plan.folding ∧ ∀ other : Sink, ∃ again,
      (after.simplify plan other).result = .ok again ∧ again.iterations = 1 ∧
        again.converged = true ∧ again.changes = 0 ∧
        (after.simplify plan other).state.graph = after := by
  have every : ∀ pass : Pass, pass ∈ plan.passes := by
    intro pass
    rw [Plan.passes, folds, canonicalizes, merges, sweeps]
    cases pass <;> decide
  have workable : (⟨graph, { plan, sink }⟩ : Workspace).graph.Workable :=
    ⟨reachable.wellFormed, acyclic, lenient⟩
  obtain ⟨⟨iterations, ended⟩, after, iterated⟩ :=
    Workspace.iterate_made plan.passes plan.maxIterations _ workable
  rw [simplify_of_iterate iterated] at simplified ⊢
  cases simplified
  obtain rfl : ended = true := converged
  obtain ⟨often, workableAfter, idle⟩ := Workspace.iterate_converged workable iterated
  exact ⟨workableAfter.normal fun pass => idle pass (every pass),
    workableAfter.simplify_idle often idle⟩

theorem simplify_normalizes_maskedQuotient :
    let simplified := maskedQuotient.simplify {} {}
    maskedQuotient.Reachable ∧ maskedQuotient.Acyclic ∧
      simplified.result = .ok ⟨2, true, 3, 3, 1⟩ ∧ simplified.state.graph.Normal {} ∧
      ∃ again, (simplified.state.graph.simplify {} {}).result = .ok again ∧
        again.iterations = 1 ∧ again.converged = true ∧ again.changes = 0 ∧
        (simplified.state.graph.simplify {} {}).state.graph = simplified.state.graph := by
  intro simplified
  have made : (maskedQuotient.simplify {} {}).result = .ok ⟨2, true, 3, 3, 1⟩ := by cbv
  obtain ⟨normal, unchanged⟩ := simplify_normalizes reachable_maskedQuotient
    acyclic_maskedQuotient (by decide) rfl rfl rfl rfl {} made rfl
  exact ⟨reachable_maskedQuotient, acyclic_maskedQuotient, made, normal, unchanged {}⟩

end BitGraph.Graph
