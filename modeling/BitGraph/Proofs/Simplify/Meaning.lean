/-
This file proves that simplifying keeps the meaning of a graph. Every rewrite
refines the graph: no output loses its pattern, and without folding no output
changes its result at all. Since a simplification is a sequence of rewrites,
whether it goes through or is refused, the same holds of the whole.
-/

import BitGraph.Proofs.History

namespace BitGraph.Graph

variable {graph next : Graph} {folds : Bool} {rank : Value → Nat}
  {related : Except GraphError Bits → Except GraphError Bits → Prop}

/-! ### Circles -/

/-- Of two equal operations, either can be given a rank that is no higher than that of the
other. -/
theorem Ranked.exists_level (ranked : graph.Ranked rank) {id first : Nat} {operation : Operation}
    (found : graph.operation? id = some operation)
    (equal : graph.operation? first = some operation) :
    ∃ ranking, graph.Ranked ranking ∧ ranking (.result first) ≤ ranking (.result id) ∧
      ∀ value, ranking value ≤ rank value := by
  by_cases low : rank (.result first) ≤ rank (.result id)
  · exact ⟨rank, ranked, low, fun _ => Nat.le_refl _⟩
  have high := Nat.lt_of_not_le low
  have differs : Value.result id ≠ .result first := by
    intro same
    rw [same] at high
    exact Nat.lt_irrefl _ high
  refine ⟨Function.update rank (.result first) (rank (.result id)), ⟨fun reader value reads => ?_,
    fun unused large => ?_⟩, ?_, fun value => ?_⟩
  · by_cases reader_first : reader = first
    · subst reader_first
      have below := ranked.reads _ _ reads
      obtain ⟨stored, there, member⟩ := reads
      cases there.symm.trans equal
      rw [Function.update_self, Function.update_of_ne]
      · exact ranked.reads id value ⟨operation, found, member⟩
      · rintro rfl
        exact Nat.lt_irrefl _ below
    · have other : Value.result reader ≠ .result first :=
        fun same => reader_first (Value.result.inj same)
      rw [Function.update_of_ne other]
      by_cases value_first : value = .result first
      · rw [value_first, Function.update_self]
        exact high.trans (ranked.reads reader _ (value_first ▸ reads))
      · rw [Function.update_of_ne value_first]
        exact ranked.reads reader value reads
  · have other : Value.result unused ≠ .result first := by
      intro same
      cases same
      exact absurd (lt_size_of_operation? equal) (Nat.not_lt.mpr large)
    rw [Function.update_of_ne other]
    exact ranked.fresh unused large
  · rw [Function.update_self, Function.update_of_ne differs]
  · by_cases here : value = .result first
    · rw [here, Function.update_self]
      exact high.le
    · rw [Function.update_of_ne here]

theorem Rewrite.acyclic (rewrite : graph.Rewrite folds next) (wellFormed : graph.WellFormed)
    (acyclic : graph.Acyclic) : next.Acyclic := by
  cases rewrite with
  | fold _ found proposed =>
    have suits := fold_suits (scope_typed graph) wellFormed.scope_verified
      (wellFormed.verified _ _ found) proposed
    exact acyclic_replace wellFormed found suits acyclic
  | canonicalize found proposed =>
    have suits := canonicalize_suits (scope_typed graph) (wellFormed.verified _ _ found) proposed
    exact acyclic_replace wellFormed found suits acyclic
  | merge apart found equal =>
    obtain ⟨rank, ranked⟩ := acyclic_iff_exists_ranked.mp acyclic
    obtain ⟨ranking, level, low, _⟩ := ranked.exists_level found equal
    exact (level.supplant wellFormed low).acyclic
  | erase found unused => exact acyclic.of_extends (extends_drop graph _ _)

theorem Rewrites.acyclic (rewrites : graph.Rewrites folds next) (wellFormed : graph.WellFormed)
    (acyclic : graph.Acyclic) : next.Acyclic := by
  induction rewrites with
  | refl => exact acyclic
  | tail before rewrite inductionHypothesis =>
    exact rewrite.acyclic ((Rewrites.changes before wellFormed).wellFormed wellFormed)
      inductionHypothesis

/-! ### Results -/

section Refined

variable (tolerance : Tolerance related)
  (folding : folds = true → ∀ before after, Refines before after → related before after)
include tolerance folding

/-- Each rewrite keeps the results, as far as the tolerance asks for it; only folding needs any. -/
theorem Rewrite.refined (rewrite : graph.Rewrite folds next) (wellFormed : graph.WellFormed)
    (acyclic : graph.Acyclic) (strict : 1 ≤ graph.strictness.minArity) :
    Refined related graph next := by
  have after := rewrite.acyclic wellFormed acyclic
  have wellFormedAfter := (rewrite.changes wellFormed).wellFormed wellFormed
  cases rewrite with
  | fold enabled found proposed =>
    have suits := fold_suits (scope_typed graph) wellFormed.scope_verified
      (wellFormed.verified _ _ found) proposed
    refine refined_replace wellFormed found ?_ tolerance acyclic strict
    exact { suits with
      outcome := fun outcomes respects => folding enabled _ _ (suits.outcome outcomes respects) }
  | canonicalize found proposed =>
    have suits := canonicalize_suits (scope_typed graph) (wellFormed.verified _ _ found) proposed
    refine refined_replace wellFormed found ?_ tolerance acyclic strict
    exact { suits with
      outcome := fun outcomes respects => suits.outcome outcomes respects ▸ tolerance.refl _ }
  | merge apart found equal =>
    have differs := fun same => apart (Value.result.inj same)
    refine refined_supplant tolerance wellFormed found differs (typeOf_result equal) acyclic after
      fun assignment outcomes _ solves => ?_
    rw [solves.result _ _ found, solves.result _ _ equal]
    exact tolerance.refl _
  | erase found unused =>
    exact refined_of_dropping tolerance (extends_drop graph _ _) wellFormedAfter wellFormed acyclic

theorem Rewrites.refined (rewrites : graph.Rewrites folds next) (wellFormed : graph.WellFormed)
    (acyclic : graph.Acyclic) (strict : 1 ≤ graph.strictness.minArity) :
    Refined related graph next := by
  induction rewrites with
  | refl => exact .refl tolerance wellFormed acyclic
  | tail before rewrite inductionHypothesis =>
    have wellFormedThere := (Rewrites.changes before wellFormed).wellFormed wellFormed
    have acyclicThere := Rewrites.acyclic before wellFormed acyclic
    refine inductionHypothesis.trans tolerance
      (rewrite.refined tolerance folding wellFormedThere acyclicThere ?_)
    rw [inductionHypothesis.strictness]
    exact strict

end Refined

/-! ### Simplifying -/

/-- The names and types of the outputs, in order. -/
def declaredOutputs (graph : Graph) : List (Nat × Option BitType) :=
  graph.outputs.toList.map fun output => (output.name, graph.typeOf output.value)

theorem Refined.declaredOutputs (refined : Refined related graph next) :
    next.declaredOutputs = graph.declaredOutputs := by
  have zipped : ∀ graph : Graph, graph.declaredOutputs =
      (graph.outputs.toList.map Output.name).zip (graph.outputValues.map graph.typeOf) := by
    intro graph
    rw [Graph.declaredOutputs, outputValues, List.map_map, List.zip_map']
    rfl
  rw [zipped, zipped, refined.outputNames, refined.outputTypes]

/-- A refined graph evaluates to the same patterns. -/
theorem Refined.evaluate (refined : Refined Refines graph next) {assignment : Assignment}
    (fits : assignment.Fits graph) {patterns : List Bits}
    (evaluated : graph.evaluate assignment = .ok patterns) :
    next.evaluate assignment = .ok patterns := by
  obtain ⟨first, second, before, after, each⟩ := refined.outcomes assignment fits
  rw [evaluate_eq_outcomes, before] at evaluated
  rw [evaluate_eq_outcomes, after]
  exact mapM_of_refines each evaluated

/-- A graph with equal results evaluates to the same patterns or the same error. -/
theorem Refined.outcomes_eq (refined : Refined Eq graph next) {assignment : Assignment}
    (fits : assignment.Fits graph) : next.outcomes assignment = graph.outcomes assignment := by
  obtain ⟨first, second, before, after, each⟩ := refined.outcomes assignment fits
  rw [List.forall₂_eq_eq_eq] at each
  rw [before, after, each]

/-- Simplifying an acyclic graph, whether it goes through or is refused, keeps the inputs, the
outputs and every output that has a pattern; without folding it keeps the failures, too. -/
theorem simplify_refines (reachable : graph.Reachable) (acyclic : graph.Acyclic)
    (strict : 1 ≤ graph.strictness.minArity) (plan : Plan) (sink : Sink)
    {assignment : Assignment} (fits : assignment.Fits graph) :
    let after := (graph.simplify plan sink).state.graph
    after.names = graph.names ∧
    after.declaredInputs = graph.declaredInputs ∧
    after.declaredOutputs = graph.declaredOutputs ∧
    (∃ first second, graph.outcomes assignment = .ok first ∧
      after.outcomes assignment = .ok second ∧ List.Forall₂ Refines first second) ∧
    (∀ patterns, graph.evaluate assignment = .ok patterns →
      after.evaluate assignment = .ok patterns) ∧
    (plan.fold = false → after.outcomes assignment = graph.outcomes assignment ∧
      after.evaluate assignment = graph.evaluate assignment) := by
  intro after
  have wellFormed := reachable.wellFormed
  have rewrites :=
    rewrites_snapshots wellFormed plan sink after (graph.state_mem_snapshots plan sink)
  have refined : Refined Refines graph after :=
    rewrites.refined tolerance_refines (fun _ _ _ related => related) wellFormed acyclic strict
  refine ⟨refined.names, refined.inputs, refined.declaredOutputs, refined.outcomes assignment fits,
    fun patterns => refined.evaluate fits, fun unfolded => ?_⟩
  have exactly : Refined Eq graph after := by
    refine rewrites.refined tolerance_eq (fun folds => ?_) wellFormed acyclic strict
    rw [unfolded] at folds
    cases folds
  have same := exactly.outcomes_eq fits
  refine ⟨same, ?_⟩
  rw [evaluate_eq_outcomes, same, ← evaluate_eq_outcomes]

theorem simplify_refines_maskedQuotient :
    let assignment : Assignment := fun _ => some ⟨byte.width, byte.positive, 7⟩
    let after := (maskedQuotient.simplify {} {}).state.graph
    maskedQuotient.Reachable ∧ maskedQuotient.Acyclic ∧ assignment.Fits maskedQuotient ∧
      ∃ first second, maskedQuotient.outcomes assignment = .ok first ∧
        after.outcomes assignment = .ok second ∧ List.Forall₂ Refines first second := by
  intro assignment after
  have fits : assignment.Fits maskedQuotient := fits_maskedQuotient rfl
  exact ⟨reachable_maskedQuotient, acyclic_maskedQuotient, fits,
    (simplify_refines reachable_maskedQuotient acyclic_maskedQuotient (by decide) {} {}
      fits).2.2.2.1⟩

end BitGraph.Graph
