/-
This file says when a graph may stand for another one: it has the same inputs and
outputs, and each output has a result that is related to the one it had. Adding
and dropping operations changes no result, and supplanting an operation changes
results by no more than the value put in its place differs from it. A suitable
proposal therefore refines the graph, whether it is accepted or refused.
-/

import BitGraph.Proofs.Graph.Building
import BitGraph.Proofs.Graph.Solution

namespace BitGraph.Graph

/-- The second graph has the inputs and outputs of the first one, and related results. -/
structure Refined (related : Except GraphError Bits → Except GraphError Bits → Prop)
    (before after : Graph) : Prop extends Frame before after where
  outputNames : after.outputs.toList.map Output.name = before.outputs.toList.map Output.name
  outputTypes : after.outputValues.map after.typeOf = before.outputValues.map before.typeOf
  outcomes : ∀ assignment : Assignment, assignment.Fits before → ∃ first second,
    before.outcomes assignment = .ok first ∧ after.outcomes assignment = .ok second ∧
      List.Forall₂ related first second

variable {related : Except GraphError Bits → Except GraphError Bits → Prop}
  (tolerance : Tolerance related)

theorem Frame.fits {before after : Graph} (frame : Frame before after) {assignment : Assignment}
    (fits : assignment.Fits before) : assignment.Fits after := by
  intro index type typed
  rw [frame.typeOf_input] at typed
  exact fits index type typed

include tolerance in
theorem Refined.refl {graph : Graph} (wellFormed : graph.WellFormed) (acyclic : graph.Acyclic) :
    Refined related graph graph where
  toFrame := .refl graph
  outputNames := rfl
  outputTypes := rfl
  outcomes assignment _ := by
    obtain ⟨results, _, solves⟩ := exists_solution acyclic assignment
    have evaluated := outcomes_of_solves wellFormed acyclic solves
    exact ⟨_, _, evaluated, evaluated, List.forall₂_same.mpr fun _ _ => tolerance.refl _⟩

include tolerance in
theorem Refined.trans {first second third : Graph} (left : Refined related first second)
    (right : Refined related second third) : Refined related first third where
  toFrame := left.toFrame.trans right.toFrame
  outputNames := right.outputNames.trans left.outputNames
  outputTypes := right.outputTypes.trans left.outputTypes
  outcomes assignment fits := by
    obtain ⟨start, middle, evaluated, between, leftRelated⟩ := left.outcomes assignment fits
    obtain ⟨middle', final, between', final', rightRelated⟩ :=
      right.outcomes assignment (left.toFrame.fits fits)
    cases between.symm.trans between'
    refine ⟨start, final, evaluated, final', ?_⟩
    refine forall₂_of_common (fun result before after => ?_) leftRelated.flip rightRelated
    exact tolerance.trans

/-! ### Adding and dropping operations -/

theorem Acyclic.of_extends {small large : Graph} (acyclic : large.Acyclic)
    (extends_ : Extends small large) : small.Acyclic := by
  have depends : ∀ {reader source}, small.DependsOn reader source →
      large.DependsOn reader source := by
    intro reader source depends
    induction depends with
    | direct reads =>
      obtain ⟨operation, found, member⟩ := reads
      exact .direct ⟨operation, extends_.operation? _ _ found, member⟩
    | through reads _ inductionHypothesis =>
      obtain ⟨operation, found, member⟩ := reads
      exact .through ⟨operation, extends_.operation? _ _ found, member⟩ inductionHypothesis
  exact fun id circular => acyclic id (depends circular)

/-- Operations that the outputs do not depend on may come and go. -/
theorem outcomes_of_extends {small large : Graph} (extends_ : Extends small large)
    (wellFormed : small.WellFormed) (wellFormedLarge : large.WellFormed)
    (acyclic : large.Acyclic) (assignment : Assignment) :
    ∃ results, small.outcomes assignment = .ok results ∧
      large.outcomes assignment = .ok results := by
  obtain ⟨results, _, solves⟩ := exists_solution acyclic assignment
  refine ⟨_, outcomes_of_solves wellFormed (acyclic.of_extends extends_)
    (solves.of_extends extends_), ?_⟩
  rw [outcomes_of_solves wellFormedLarge acyclic solves, outputValues, extends_.outputs]
  rfl

theorem outputTypes_of_extends {small large : Graph} (extends_ : Extends small large)
    (wellFormed : small.WellFormed) :
    large.outputValues.map large.typeOf = small.outputValues.map small.typeOf := by
  rw [outputValues, extends_.outputs]
  refine List.map_congr_left fun value driven => ?_
  obtain ⟨type, typed⟩ := (small.holds_iff value).mp (wellFormed.holds_of_output driven)
  rw [typed, extends_.typeOf typed]

section Extends

variable {small large : Graph} (extends_ : Extends small large) (wellFormed : small.WellFormed)
  (wellFormedLarge : large.WellFormed) (acyclic : large.Acyclic)

include tolerance extends_ wellFormed wellFormedLarge acyclic

theorem refined_of_adding : Refined related small large where
  toFrame := extends_.toFrame
  outputNames := by rw [extends_.outputs]
  outputTypes := outputTypes_of_extends extends_ wellFormed
  outcomes assignment _ := by
    obtain ⟨results, before, after⟩ :=
      outcomes_of_extends extends_ wellFormed wellFormedLarge acyclic assignment
    exact ⟨results, results, before, after, List.forall₂_same.mpr fun _ _ => tolerance.refl _⟩

theorem refined_of_dropping : Refined related large small where
  toFrame := extends_.toFrame.symm
  outputNames := by rw [extends_.outputs]
  outputTypes := (outputTypes_of_extends extends_ wellFormed).symm
  outcomes assignment _ := by
    obtain ⟨results, before, after⟩ :=
      outcomes_of_extends extends_ wellFormed wellFormedLarge acyclic assignment
    exact ⟨results, results, after, before, List.forall₂_same.mpr fun _ _ => tolerance.refl _⟩

end Extends

/-! ### Redirecting a value -/

section Redirect

variable {graph : Graph} (wellFormed : graph.WellFormed) {source target : Value}
  {assignment : Assignment} {outcomes : Outcomes}

include wellFormed in
theorem outputValues_redirect : (graph.redirect source target).outputValues =
    graph.outputValues.map (Value.substitute source target) := by
  rw [outputValues, outputs_redirect wellFormed, List.map_map, outputValues, List.map_map]
  rfl

include tolerance in
theorem related_substitute (close : related (outcomes source) (outcomes target)) (read : Value) :
    related (outcomes read) (outcomes (Value.substitute source target read)) := by
  by_cases here : read = source
  · rw [here, Value.substitute_self]
    exact close
  · rw [Value.substitute_other here]
    exact tolerance.refl _

include tolerance wellFormed in
/-- The solution of a graph solves the equations of the redirected one as far as the value that is
read now agrees with the one that was. -/
theorem SolvesUpTo.redirect (solves : graph.Solves assignment outcomes)
    (close : related (outcomes source) (outcomes target)) :
    (graph.redirect source target).SolvesUpTo related assignment outcomes where
  input := solves.input
  result other rewritten there := by
    rw [operation?_redirect wellFormed] at there
    obtain ⟨original, before, rfl⟩ := Option.map_eq_some_iff.mp there
    rw [solves.result other original before]
    refine tolerance.combine original ?_
    rw [Operation.substitute, List.map_map, List.forall₂_map_left_iff,
      List.forall₂_map_right_iff, List.forall₂_same]
    exact fun read _ => related_substitute tolerance close read

end Redirect

/-! ### Supplanting an operation -/

section Supplant

variable {graph : Graph} {id : Nat} {operation : Operation} {value : Value}
  (wellFormed : graph.WellFormed) (found : graph.operation? id = some operation)
  (apart : Value.result id ≠ value) (typed : graph.typeOf value = some operation.type)

include wellFormed in
theorem outputValues_supplant : (graph.supplant id operation value).outputValues =
    graph.outputValues.map (Value.substitute (.result id) value) := by
  rw [← outputValues_redirect wellFormed, outputValues, outputValues,
    (extends_drop (graph.redirect (.result id) value) id _).outputs]
  rfl

include tolerance wellFormed found apart typed in
theorem refined_supplant (acyclic : graph.Acyclic)
    (after : (graph.supplant id operation value).Acyclic)
    (outcome : ∀ assignment outcomes, assignment.Fits graph → graph.Solves assignment outcomes →
      related (outcomes (.result id)) (outcomes value)) :
    Refined related graph (graph.supplant id operation value) where
  toFrame := (changes_supplant wellFormed found apart typed).frame
  outputNames := by rw [outputs_supplant wellFormed, List.map_map]; rfl
  outputTypes := by
    rw [outputValues_supplant wellFormed, List.map_map]
    refine List.map_congr_left fun read _ => ?_
    by_cases here : read = .result id
    · rw [Function.comp_apply, here, Value.substitute_self, typeOf_supplant wellFormed apart.symm,
        typed, typeOf_result found]
    · rw [Function.comp_apply, Value.substitute_other here, typeOf_supplant wellFormed here]
  outcomes assignment fits := by
    have wellFormedAfter :=
      (changes_supplant wellFormed found apart typed).wellFormed wellFormed
    obtain ⟨first, _, solves⟩ := exists_solution acyclic assignment
    obtain ⟨second, _, solvesAfter⟩ := exists_solution after assignment
    have close := outcome assignment _ fits solves
    -- Dropping the operation only takes away the equation that it had.
    have near : (graph.supplant id operation value).SolvesUpTo related assignment _ :=
      (solves.redirect tolerance wellFormed close).of_extends (extends_drop _ id _)
    refine ⟨_, _, outcomes_of_solves wellFormed acyclic solves,
      outcomes_of_solves wellFormedAfter after solvesAfter, ?_⟩
    rw [outputValues_supplant wellFormed, List.map_map, List.forall₂_map_left_iff,
      List.forall₂_map_right_iff, List.forall₂_same]
    intro read driven
    refine tolerance.trans (related_substitute tolerance close read) ?_
    refine near.related_solution tolerance wellFormedAfter after solvesAfter
      (wellFormedAfter.holds_of_output ?_)
    rw [outputValues_supplant wellFormed]
    exact List.mem_map_of_mem driven

end Supplant

end BitGraph.Graph
