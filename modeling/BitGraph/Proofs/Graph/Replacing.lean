/-
This file follows a suitable proposal from its making to the graph it leads to.
If it is built, it supplants the operation that it was made for; otherwise only
constants were added. Either way the graph has no circle if it had none before,
and its outputs have the results that the proposal promises. No proposal is
refused as long as the strictness asks for two operands at most.
-/

import BitGraph.Proofs.Graph.Refinement

namespace BitGraph.Graph

variable {graph next : Graph} {id : Nat} {operation : Operation} {replacement : Replacement}
  {value : Value} {rank : Value → Nat}
  {related : Except GraphError Bits → Except GraphError Bits → Prop}

/-! ### What a graph knows about values -/

theorem scope_typed (graph : Graph) : graph.scope.Typed := by
  intro value definition defined
  cases value with
  | input index => cases defined
  | result id => exact typeOf_result defined

theorem WellFormed.scope_verified (wellFormed : graph.WellFormed) :
    graph.scope.Verified graph.strictness := by
  intro value definition defined
  cases value with
  | input index => cases defined
  | result id => exact wellFormed.verified id definition defined

/-- What is near an operation has a lower rank. -/
theorem Ranked.lt_of_near (ranked : graph.Ranked rank)
    (found : graph.operation? id = some operation) (near : graph.scope.Near operation value) :
    rank value < rank (.result id) := by
  rcases near with member | ⟨inner, member, definition, defined, read⟩
  · exact ranked.reads id value ⟨operation, found, member⟩
  · cases inner with
    | input index => cases defined
    | result other =>
      have outer := ranked.reads id (.result other) ⟨operation, found, member⟩
      exact (ranked.reads other value ⟨definition, defined, read⟩).trans outer

/-- An operation is not proposed for itself. -/
theorem other_of_suits (ranked : graph.Ranked rank)
    (found : graph.operation? id = some operation)
    (suits : replacement.Suits graph.scope operation related) :
    replacement ≠ .existing (.result id) := by
  rintro rfl
  have near := suits.near (.result id) (List.mem_singleton_self _)
  exact Nat.lt_irrefl _ (ranked.lt_of_near found near)

/-- Whatever reads something has a rank above zero. -/
theorem Ranked.pos_of_pending (ranked : graph.Ranked rank)
    (found : graph.operation? id = some operation)
    (suits : replacement.Suits graph.scope operation related) (shape : Shape)
    (fresh : replacement = .fresh shape) (pending : shape.pending ≠ []) :
    0 < rank (.result id) := by
  have size := suits.size shape fresh
  have positive := List.length_pos_iff.mpr pending
  obtain ⟨read, member⟩ : ∃ read, read ∈ operation.operands :=
    List.exists_mem_of_length_pos (by omega)
  exact Nat.zero_lt_of_lt (ranked.reads id read ⟨operation, found, member⟩)

/-! ### Results of what is built -/

/-- What is built for a proposal has the result that the proposal promises. -/
theorem Builds.outcome (builds : Builds graph replacement value next) {assignment : Assignment}
    {outcomes : Outcomes} (solves : next.Solves assignment outcomes) :
    replacement.outcome outcomes = outcomes value := by
  have constant : ∀ number (bits : Bits), next.operation? number = some bits.operation →
      outcomes (.result number) = .ok bits := by
    intro number bits found
    rw [solves.result number _ found]
    refine (bits.operation.combine_map_ok []).trans ?_
    have known := bits.constant?_operation
    simp only [Operation.evaluate, Operation.kind_of_constant? known, known]
  cases builds with
  | existing _ => rfl
  | constant bits => exact (constant _ bits (operation?_store_self _ _)).symm
  | @fresh shape values placed places verified =>
    have operands : shape.operands.map (Operand.outcome outcomes) = values.map outcomes := by
      rw [← List.forall₂_eq_eq_eq, List.forall₂_map_left_iff, List.forall₂_map_right_iff]
      refine (places.standFor_store (shape.operation values)).imp fun operand read stands => ?_
      cases operand with
      | existing named => exact congrArg outcomes stands.symm
      | pending bits =>
        obtain ⟨number, rfl, _, found⟩ := stands
        exact (constant number bits found).symm
    rw [solves.result _ _ (operation?_store_self placed _), Replacement.outcome, Shape.outcome,
      operands]
    unfold Operation.combine
    exact congrArg _ (funext fun arguments => Operation.evaluate_eq_of_parts rfl rfl rfl arguments)

/-! ### Replacing -/

section Suits

variable (wellFormed : graph.WellFormed) (ranked : graph.Ranked rank)
  (found : graph.operation? id = some operation)
  (suits : replacement.Suits graph.scope operation related)

include wellFormed ranked found suits in
/-- A suitable proposal is built and supplants the operation, or only constants are added. -/
theorem replace_cases :
    (∃ value next, graph.replace id replacement =
        .succeed value (next.supplant id operation value) ∧
        Builds graph replacement value next) ∨
      ∃ reason operands values next, graph.replace id replacement = .fail reason next ∧
        Places operands graph values next := by
  rcases materialize_cases graph replacement with
    ⟨value, next, built, builds⟩ | ⟨reason, operands, values, next, failed, places⟩
  · have other := other_of_suits ranked found suits
    have replaced := replace_of_builds wellFormed found suits.type other built builds
    exact .inl ⟨value, next, replaced, builds⟩
  · have live : graph.isLive id = true := (graph.isLive_iff id).mpr ⟨operation, found⟩
    refine .inr ⟨reason, operands, values, next, ?_, places⟩
    rw [Graph.replace, if_pos live, failed, Attempt.fail_andThen]

include wellFormed ranked found suits in
/-- A strictness of at most two operands refuses nothing suitable. -/
theorem replace_succeeds (strict : graph.strictness.minArity ≤ 2) :
    ∃ value next, graph.replace id replacement =
      .succeed value (next.supplant id operation value) ∧
        Builds graph replacement value next := by
  obtain ⟨value, next, built, builds⟩ := exists_builds strict suits.type suits.fits
  have other := other_of_suits ranked found suits
  exact ⟨value, next, replace_of_builds wellFormed found suits.type other built builds, builds⟩

include wellFormed ranked found in
/-- Supplanting an operation by what is built for it keeps ranks: what is built gets a rank
between those of what it reads and that of the operation. -/
theorem Builds.exists_ranked_supplant (builds : Builds graph replacement value next) {height : Nat}
    (above : ∀ mentioned ∈ replacement.values, rank mentioned < height)
    (below : height ≤ rank (.result id))
    (positive : ∀ shape, replacement = .fresh shape → shape.pending ≠ [] → 0 < height) :
    ∃ ranking, next.Ranked ranking ∧ (next.supplant id operation value).Ranked ranking ∧
      ranking value ≤ height ∧ ∀ old, graph.holds old = true → ranking old = rank old := by
  obtain ⟨ranking, rankedNext, low, same⟩ :=
    builds.exists_ranked wellFormed ranked above positive
  have held : graph.holds (.result id) = true := (graph.isLive_iff id).mpr ⟨operation, found⟩
  have wellFormedNext := builds.growth.changes.wellFormed wellFormed
  refine ⟨ranking, rankedNext, rankedNext.supplant wellFormedNext ?_, low, same⟩
  rw [same _ held]
  exact low.trans below

include wellFormed ranked found suits in
/-- Supplanting an operation by what is built for a suitable proposal closes no circle. -/
theorem Builds.acyclic (builds : Builds graph replacement value next) :
    next.Acyclic ∧ (next.supplant id operation value).Acyclic := by
  obtain ⟨ranking, before, after, _⟩ := builds.exists_ranked_supplant wellFormed ranked found
    (fun mentioned member => ranked.lt_of_near found (suits.near mentioned member))
    (Nat.le_refl _) (ranked.pos_of_pending found suits)
  exact ⟨before.acyclic, after.acyclic⟩

include wellFormed found suits in
/-- Replacing closes no circle, whether the proposal is accepted or refused. -/
theorem acyclic_replace (acyclic : graph.Acyclic) :
    (graph.replace id replacement).state.Acyclic := by
  obtain ⟨rank, ranked⟩ := acyclic_iff_exists_ranked.mp acyclic
  rcases replace_cases wellFormed ranked found suits with
    ⟨value, next, replaced, builds⟩ | ⟨reason, operands, values, next, failed, places⟩
  · rw [replaced]
    exact (builds.acyclic wellFormed ranked found suits).2
  · rw [failed]
    exact (places.ranked wellFormed ranked).acyclic

include wellFormed found suits in
/-- Replacing refines a graph, whether the proposal is accepted or refused. -/
theorem refined_replace (tolerance : Tolerance related) (acyclic : graph.Acyclic)
    (strict : 1 ≤ graph.strictness.minArity) :
    Refined related graph (graph.replace id replacement).state := by
  obtain ⟨rank, ranked⟩ := acyclic_iff_exists_ranked.mp acyclic
  rcases replace_cases wellFormed ranked found suits with
    ⟨value, next, replaced, builds⟩ | ⟨reason, operands, values, next, failed, places⟩
  · obtain ⟨acyclicNext, after⟩ := builds.acyclic wellFormed ranked found suits
    have wellFormedNext := builds.growth.changes.wellFormed wellFormed
    have extended := builds.growth.extends
    have live : graph.isLive id = true := (graph.isLive_iff id).mpr ⟨operation, found⟩
    have apart := builds.apart live (other_of_suits ranked found suits)
    have adding := refined_of_adding tolerance extended wellFormed wellFormedNext acyclicNext
    rw [replaced]
    have foundNext := extended.operation? id operation found
    refine adding.trans tolerance (refined_supplant tolerance wellFormedNext foundNext apart
      (builds.typeOf suits.type) acyclicNext after ?_)
    intro assignment outcomes fits solves
    have before := solves.of_extends extended
    have respects := before.respects wellFormed acyclic strict (extended.toFrame.symm.fits fits)
    rw [before.result id operation found, ← builds.outcome solves]
    exact suits.outcome outcomes respects
  · have wellFormedNext := places.growth.changes.wellFormed wellFormed
    have after := (places.ranked wellFormed ranked).acyclic
    rw [failed]
    exact refined_of_adding tolerance places.growth.extends wellFormed wellFormedNext after

end Suits

end BitGraph.Graph
