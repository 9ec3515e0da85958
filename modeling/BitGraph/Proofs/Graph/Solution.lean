/-
This file treats the meaning of a graph as the solution of equations: each live
operation computes its result from those of its operands. A graph without
circles has one solution, and evaluating it finds that one. Results that solve
the equations only up to some tolerance are related to the solution by the same
tolerance, which is what it takes to compare a graph with one it was rewritten
to.
-/

import BitGraph.Graph.Run
import BitGraph.Proofs.Graph.Supplanting
import BitGraph.Proofs.Proposal.Suitable

namespace BitGraph.Graph

variable {graph : Graph} {assignment : Assignment}

/-- The result of each output on its own. -/
def outcomes (graph : Graph) (assignment : Assignment) :
    Except GraphError (List (Except GraphError Bits)) :=
  (graph.results assignment).map fun results =>
    graph.outputValues.map (results.valueOf assignment)

theorem evaluate_eq_outcomes (graph : Graph) (assignment : Assignment) :
    graph.evaluate assignment = (graph.outcomes assignment).bind (·.mapM id) := by
  unfold evaluate outcomes
  cases graph.results assignment with
  | error reason => rfl
  | ok results =>
    refine Eq.trans ?_ (List.mapM_map).symm
    rfl

/-- The results are given to the inputs by the assignment, and to each operation by its
operands, up to what is related. -/
structure SolvesUpTo (graph : Graph)
    (related : Except GraphError Bits → Except GraphError Bits → Prop)
    (assignment : Assignment) (outcomes : Outcomes) : Prop where
  input : ∀ index, outcomes (.input index) = assignment.valueOf index
  result : ∀ id operation, graph.operation? id = some operation →
    related (outcomes (.result id)) (operation.combine (operation.operands.map outcomes))

/-- The results solve the equations of the graph. -/
abbrev Solves (graph : Graph) (assignment : Assignment) (outcomes : Outcomes) : Prop :=
  graph.SolvesUpTo Eq assignment outcomes

theorem SolvesUpTo.of_extends {before after : Graph}
    {related : Except GraphError Bits → Except GraphError Bits → Prop} {outcomes : Outcomes}
    (solves : after.SolvesUpTo related assignment outcomes) (extends_ : Extends before after) :
    before.SolvesUpTo related assignment outcomes where
  input := solves.input
  result id operation found := solves.result id operation (extends_.operation? id operation found)

/-! ### Comparing solutions -/

/-- What solves the equations up to a tolerance is within it of the solution. -/
theorem SolvesUpTo.related_solution
    {related : Except GraphError Bits → Except GraphError Bits → Prop}
    (tolerance : Tolerance related) (wellFormed : graph.WellFormed) (acyclic : graph.Acyclic)
    {near exact_ : Outcomes} (approximate : graph.SolvesUpTo related assignment near)
    (solves : graph.Solves assignment exact_) {value : Value} (held : graph.holds value = true) :
    related (near value) (exact_ value) := by
  obtain ⟨rank, ranked⟩ := acyclic_iff_exists_ranked.mp acyclic
  induction height : rank value using Nat.strong_induction_on generalizing value with
  | _ height inductionHypothesis =>
    cases value with
    | input index =>
      rw [approximate.input, solves.input]
      exact tolerance.refl _
    | result id =>
      obtain ⟨operation, found⟩ := (graph.isLive_iff id).mp held
      rw [solves.result id operation found]
      refine tolerance.trans (approximate.result id operation found) ?_
      refine tolerance.combine operation ?_
      rw [List.forall₂_map_left_iff, List.forall₂_map_right_iff, List.forall₂_same]
      intro read member
      have reads : graph.Reads id read := ⟨operation, found, member⟩
      exact inductionHypothesis _ (height ▸ ranked.reads id read reads)
        (wellFormed.holds_of_reads reads) rfl

/-- Solutions agree on the values that exist. -/
theorem SolvesUpTo.unique (wellFormed : graph.WellFormed) (acyclic : graph.Acyclic)
    {first second : Outcomes} (left : graph.Solves assignment first)
    (right : graph.Solves assignment second) {value : Value} (held : graph.holds value = true) :
    first value = second value :=
  left.related_solution tolerance_eq wellFormed acyclic right held

/-! ### Evaluating -/

theorem valueOf_evaluateNext_other (graph : Graph) (assignment : Assignment) (results : Results)
    {id : Nat} {value : Value} (other : value ≠ .result id) :
    (graph.evaluateNext assignment results id).valueOf assignment value =
      results.valueOf assignment value := by
  unfold evaluateNext
  split
  · cases value with
    | input index => rfl
    | result number =>
      have differs : (number == id) = false := by
        rw [beq_eq_false_iff_ne]
        exact fun same => other (congrArg Value.result same)
      simp only [Results.valueOf, List.lookup_cons, differs]
  · rfl

theorem valueOf_foldl_other (graph : Graph) (assignment : Assignment) (ids : List Nat)
    (results : Results) {value : Value} (others : ∀ id ∈ ids, value ≠ .result id) :
    (ids.foldl (graph.evaluateNext assignment) results).valueOf assignment value =
      results.valueOf assignment value := by
  induction ids generalizing results with
  | nil => rfl
  | cons id rest inductionHypothesis =>
    rw [List.foldl_cons,
      inductionHypothesis _ fun other member => others other (List.mem_cons_of_mem _ member),
      valueOf_evaluateNext_other graph assignment results (others id List.mem_cons_self)]

theorem valueOf_evaluateNext_self (assignment : Assignment) (results : Results)
    {id : Nat} {operation : Operation} (found : graph.operation? id = some operation) :
    (graph.evaluateNext assignment results id).valueOf assignment (.result id) =
      operation.combine (operation.operands.map (results.valueOf assignment)) := by
  simp only [evaluateNext, found, Results.valueOf, List.lookup_cons, beq_self_eq_true,
    Option.getD_some, Operation.combine, List.mapM_map]
  rfl

/-- Evaluating operations that do not read later ones gives each the result that its operands
have in the end. -/
theorem valueOf_foldl_self (assignment : Assignment) {ids : List Nat} (results : Results)
    (nodup : ids.Nodup)
    (behind : ids.Pairwise fun earlier later => ¬ graph.Reads earlier (.result later))
    (apart : ∀ id ∈ ids, ¬ graph.Reads id (.result id)) {id : Nat} (member : id ∈ ids)
    {operation : Operation} (found : graph.operation? id = some operation) :
    (ids.foldl (graph.evaluateNext assignment) results).valueOf assignment (.result id) =
      operation.combine (operation.operands.map
        ((ids.foldl (graph.evaluateNext assignment) results).valueOf assignment)) := by
  induction ids generalizing results with
  | nil => cases member
  | cons first rest inductionHypothesis =>
    obtain ⟨absent, nodupRest⟩ := List.nodup_cons.mp nodup
    obtain ⟨behindFirst, behindRest⟩ := List.pairwise_cons.mp behind
    rcases List.mem_cons.mp member with rfl | inRest
    · have others : ∀ other ∈ rest, Value.result id ≠ .result other := by
        rintro other inside same
        cases same
        exact absent inside
      rw [List.foldl_cons, valueOf_foldl_other graph assignment rest _ others,
        valueOf_evaluateNext_self assignment results found]
      refine congrArg operation.combine (List.map_congr_left fun read inside => ?_)
      have reads : graph.Reads id read := ⟨operation, found, inside⟩
      rw [valueOf_foldl_other graph assignment rest, valueOf_evaluateNext_other]
      · rintro rfl
        exact apart id List.mem_cons_self reads
      · rintro other later rfl
        exact behindFirst other later reads
    · rw [List.foldl_cons]
      exact inductionHypothesis _ nodupRest behindRest
        (fun other inside => apart other (List.mem_cons_of_mem _ inside)) inRest

/-- The results of a graph without circles solve its equations. -/
theorem exists_solution (acyclic : graph.Acyclic) (assignment : Assignment) :
    ∃ results, graph.results assignment = .ok results ∧
      graph.Solves assignment (results.valueOf assignment) := by
  obtain ⟨ids, ordered, arrangement⟩ := acyclic.exists_order
  refine ⟨ids.foldl (graph.evaluateNext assignment) [], ?_, fun index => rfl, ?_⟩
  · rw [Graph.results, ordered]
    rfl
  · intro id operation found
    exact valueOf_foldl_self assignment [] arrangement.nodup arrangement.behind arrangement.apart
      ((arrangement.mem_iff id).mpr ⟨operation, found⟩) found

/-- The outputs have the results that any solution gives them. -/
theorem outcomes_of_solves (wellFormed : graph.WellFormed) (acyclic : graph.Acyclic)
    {outcomes : Outcomes} (solves : graph.Solves assignment outcomes) :
    graph.outcomes assignment = .ok (graph.outputValues.map outcomes) := by
  obtain ⟨results, evaluated, solution⟩ := exists_solution acyclic assignment
  rw [Graph.outcomes, evaluated]
  refine congrArg Except.ok (List.map_congr_left fun value driven => ?_)
  exact solution.unique wellFormed acyclic solves (wellFormed.holds_of_output driven)

/-! ### Solutions and types -/

/-- The solution gives every value a result of its type, every constant its pattern and every
slice its slice. -/
theorem SolvesUpTo.respects (wellFormed : graph.WellFormed) (acyclic : graph.Acyclic)
    (strict : 1 ≤ graph.strictness.minArity) (fits : assignment.Fits graph)
    {outcomes : Outcomes} (solves : graph.Solves assignment outcomes) :
    outcomes.Respects graph.scope where
  admits value type typed := by
    obtain ⟨rank, ranked⟩ := acyclic_iff_exists_ranked.mp acyclic
    induction height : rank value using Nat.strong_induction_on generalizing value type with
    | _ height inductionHypothesis =>
      cases value with
      | input index =>
        obtain ⟨bits, given, width⟩ := fits index type typed
        rw [solves.input, Assignment.valueOf, given]
        exact BitType.admits_ok width
      | result id =>
        obtain ⟨operation, found, rfl⟩ := Option.map_eq_some_iff.mp typed
        obtain ⟨types, each, accepts⟩ :=
          (operation.verify_eq_ok_iff _ _).mp (wellFormed.verified id operation found)
        rw [solves.result id operation found]
        refine Operation.combine_admits accepts strict (List.forall₂_map_left_iff.mpr ?_)
        rw [List.forall₂_iff_get] at each ⊢
        refine ⟨each.1, fun index here there => ?_⟩
        have reads : graph.Reads id (operation.operands.get ⟨index, here⟩) :=
          ⟨operation, found, List.get_mem _ _⟩
        exact inductionHypothesis _ (height ▸ ranked.reads id _ reads) _ _
          (each.2 index here there) rfl
  constant value bits constant := by
    obtain ⟨operation, defined, known⟩ := Option.bind_eq_some_iff.mp constant
    cases value with
    | input index => cases defined
    | result id =>
      have constantKind := Operation.kind_of_constant? known
      have operands :=
        Operation.operands_of_constant (wellFormed.verified id operation defined) constantKind
      rw [solves.result id operation defined, operands]
      refine (operation.combine_map_ok []).trans ?_
      simp only [Operation.evaluate, constantKind, known]
  slice value operation defined _ := by
    cases value with
    | input index => cases defined
    | result id => exact solves.result id operation defined

end BitGraph.Graph
