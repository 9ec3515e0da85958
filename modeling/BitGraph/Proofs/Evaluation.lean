/-
This file proves that evaluating a graph without circles is what the recursion
says. The table that is filled in order gives every value what it denotes, and
that is a pattern of the value's width or the failure of a division by zero.
Such a failure comes from an operation that divides by a value which denotes
zero, and it reaches everything that depends on this operation, but nothing
else. So it is the outputs that decide whether evaluating fails, and what they
do not depend on does not matter.
-/

import BitGraph.Proofs.History

namespace BitGraph.Graph

variable {graph : Graph} {assignment : Assignment} {outcomes : Outcomes} {value : Value}

/-! ### The table and the recursion -/

/-- A solution of the equations gives every value that exists what it denotes. -/
theorem SolvesUpTo.denotes (wellFormed : graph.WellFormed) (acyclic : graph.Acyclic)
    (solves : graph.Solves assignment outcomes) (held : graph.holds value = true) :
    graph.Denotes assignment value (outcomes value) := by
  obtain ⟨rank, ranked⟩ := acyclic_iff_exists_ranked.mp acyclic
  induction height : rank value using Nat.strong_induction_on generalizing value with
  | _ height inductionHypothesis =>
    cases value with
    | input index =>
      rw [solves.input]
      exact .input index
    | result id =>
      obtain ⟨operation, found⟩ := (graph.isLive_iff id).mp held
      rw [solves.result id operation found]
      refine .result found (List.length_map _) fun index read argument here there => ?_
      rw [List.getElem?_map, here] at there
      cases there
      have reads : graph.Reads id read := ⟨operation, found, List.mem_of_getElem? here⟩
      exact inductionHypothesis _ (height ▸ ranked.reads id read reads)
        (wellFormed.holds_of_reads reads) rfl

/-- The operation of a number divides by a value that denotes zero. -/
def DividesByZero (graph : Graph) (assignment : Assignment) (id : Nat) : Prop :=
  ∃ operation dividend divisor bits, graph.operation? id = some operation ∧
    operation.kind.Divides ∧ operation.operands = [dividend, divisor] ∧
      graph.Denotes assignment divisor (.ok bits) ∧ bits.isZero = true

/-! ### Where failures come from, and where they go -/

section Failures

variable {id : Nat} {operation : Operation} {source : Value}
  (wellFormed : graph.WellFormed) (acyclic : graph.Acyclic)
  (strict : 1 ≤ graph.strictness.minArity) (solves : graph.Solves assignment outcomes)
  (respects : outcomes.Respects graph.scope)

include wellFormed solves respects in
/-- The operands of an operation have patterns, on which it computes its result, or one of them
has failed, and so has the operation. -/
theorem outcome_cases (found : graph.operation? id = some operation) :
    (∃ arguments types, operation.Accepts graph.strictness types ∧
      List.Forall₂ (fun bits type => bits.width = type.width) arguments types ∧
      operation.operands.map outcomes = arguments.map .ok ∧
      outcomes (.result id) = operation.evaluate arguments) ∨
    (∃ read ∈ operation.operands, outcomes read = .error (.bits .divisionByZero)) ∧
      outcomes (.result id) = .error (.bits .divisionByZero) := by
  obtain ⟨types, each, accepts⟩ :=
    (operation.verify_eq_ok_iff _ _).mp (wellFormed.verified id operation found)
  rw [solves.result id operation found]
  rcases operation.combine_cases (respects.forall₂_admits each) with
    ⟨arguments, same, typed, computed⟩ | ⟨member, failed⟩
  · exact .inl ⟨arguments, types, accepts, typed, same, computed⟩
  · exact .inr ⟨List.mem_map.mp member, failed⟩

include wellFormed solves respects in
theorem failed_of_reads (reads : graph.Reads id source)
    (failed : outcomes source = .error (.bits .divisionByZero)) :
    outcomes (.result id) = .error (.bits .divisionByZero) := by
  obtain ⟨operation, found, member⟩ := reads
  rcases outcome_cases wellFormed solves respects found with
    ⟨arguments, types, _, _, same, _⟩ | ⟨_, fails⟩
  · have inside := List.mem_map_of_mem (f := outcomes) member
    rw [failed, same] at inside
    obtain ⟨_, _, impossible⟩ := List.mem_map.mp inside
    cases impossible
  · exact fails

include wellFormed solves respects in
/-- A failure reaches everything that depends on the value that failed. -/
theorem failed_of_dependsOn (depends : graph.DependsOn value source)
    (failed : outcomes source = .error (.bits .divisionByZero)) :
    outcomes value = .error (.bits .divisionByZero) := by
  induction depends with
  | direct reads => exact failed_of_reads wellFormed solves respects reads failed
  | through reads _ inductionHypothesis =>
    exact failed_of_reads wellFormed solves respects reads (inductionHypothesis failed)

include wellFormed acyclic solves respects in
theorem failed_of_dividesByZero (divides : graph.DividesByZero assignment id) :
    outcomes (.result id) = .error (.bits .divisionByZero) := by
  obtain ⟨operation, dividend, divisor, bits, found, kind, operands, denotes, zero⟩ := divides
  rcases outcome_cases wellFormed solves respects found with
    ⟨arguments, types, accepts, typed, same, computed⟩ | ⟨_, failed⟩
  · have reads : graph.Reads id divisor := ⟨operation, found, by rw [operands]; simp⟩
    have divided : outcomes divisor = .ok bits :=
      (solves.denotes wellFormed acyclic (wellFormed.holds_of_reads reads)).unique denotes
    obtain ⟨left, right, rfl, fails, _⟩ := Operation.evaluate_divides accepts kind typed
    rw [operands] at same
    simp only [List.map_cons, List.map_nil, divided, List.cons.injEq, Except.ok.injEq] at same
    rw [computed]
    exact fails (same.2.1 ▸ zero)
  · exact failed

include wellFormed acyclic strict solves respects in
/-- A failure comes from a division by zero, at the value itself or at one that it depends on. -/
theorem exists_dividesByZero (held : graph.holds value = true)
    (failed : outcomes value = .error (.bits .divisionByZero)) :
    ∃ id, (value = .result id ∨ graph.DependsOn value (.result id)) ∧
      graph.DividesByZero assignment id := by
  obtain ⟨rank, ranked⟩ := acyclic_iff_exists_ranked.mp acyclic
  induction height : rank value using Nat.strong_induction_on generalizing value with
  | _ height inductionHypothesis =>
    cases value with
    | input index =>
      rw [solves.input] at failed
      unfold Assignment.valueOf at failed
      split at failed <;> cases failed
    | result id =>
      obtain ⟨operation, found⟩ := (graph.isLive_iff id).mp held
      rcases outcome_cases wellFormed solves respects found with
        ⟨arguments, types, accepts, typed, same, computed⟩ | ⟨⟨read, member, fails⟩, _⟩
      · rw [computed, Operation.evaluate_eq_error_iff accepts strict typed] at failed
        obtain ⟨_, kind, left, right, rfl, zero⟩ := failed
        obtain ⟨dividend, divisor, operands⟩ := List.length_eq_two.mp
          ((List.length_map _).symm.trans (congrArg List.length same))
        rw [operands] at same
        simp only [List.map_cons, List.map_nil, List.cons.injEq, and_true] at same
        have reads : graph.Reads id divisor := ⟨operation, found, by rw [operands]; simp⟩
        have denotes := solves.denotes wellFormed acyclic (wellFormed.holds_of_reads reads)
        rw [same.2] at denotes
        exact ⟨id, .inl rfl, operation, dividend, divisor, right, found, kind, operands, denotes,
          zero⟩
      · have reads : graph.Reads id read := ⟨operation, found, member⟩
        obtain ⟨origin, reaches, divides⟩ := inductionHypothesis _
          (height ▸ ranked.reads id read reads) (wellFormed.holds_of_reads reads) fails rfl
        refine ⟨origin, .inr ?_, divides⟩
        rcases reaches with rfl | depends
        · exact .direct reads
        · exact .through reads depends

end Failures

/-! ### What the outputs do not depend on -/

/-- A graph that has the operations which the outputs depend on gives the values behind these
outputs the same results, whatever else it has. -/
theorem outcomes_of_needed {other : Graph} {results : Outcomes} (wellFormed : graph.WellFormed)
    (acyclic : graph.Acyclic) (needed : ∀ id, graph.Needs id → other.operation? id =
      graph.operation? id) (solves : graph.Solves assignment outcomes)
    (solvesOther : other.Solves assignment results) {output : Value}
    (driven : output ∈ graph.outputValues)
    (reaches : output = value ∨ graph.DependsOn output value) : results value = outcomes value := by
  obtain ⟨rank, ranked⟩ := acyclic_iff_exists_ranked.mp acyclic
  induction height : rank value using Nat.strong_induction_on generalizing value with
  | _ height inductionHypothesis =>
    cases value with
    | input index => rw [solves.input, solvesOther.input]
    | result id =>
      have held : graph.holds (.result id) = true := by
        rcases reaches with same | depends
        · exact same ▸ wellFormed.holds_of_output driven
        · exact wellFormed.holds_of_dependsOn depends
      obtain ⟨operation, found⟩ := (graph.isLive_iff id).mp held
      have foundOther := (needed id ⟨output, driven, reaches⟩).trans found
      rw [solves.result id operation found, solvesOther.result id operation foundOther]
      refine congrArg operation.combine (List.map_congr_left fun read member => ?_)
      have reads : graph.Reads id read := ⟨operation, found, member⟩
      refine inductionHypothesis _ (height ▸ ranked.reads id read reads) (.inr ?_) rfl
      rcases reaches with rfl | depends
      · exact .direct reads
      · exact depends.trans (.direct reads)

/-! ### Evaluating -/

theorem evaluate_of_solves (wellFormed : graph.WellFormed) (acyclic : graph.Acyclic)
    (solves : graph.Solves assignment outcomes) :
    graph.evaluate assignment = (graph.outputValues.map outcomes).mapM id := by
  rw [evaluate_eq_outcomes, outcomes_of_solves wellFormed acyclic solves]
  rfl

theorem evaluate_of_needed {other : Graph} (wellFormed : graph.WellFormed)
    (acyclic : graph.Acyclic) (acyclicOther : other.Acyclic)
    (outputs : other.outputValues = graph.outputValues)
    (needed : ∀ id, graph.Needs id → other.operation? id = graph.operation? id)
    (assignment : Assignment) : other.evaluate assignment = graph.evaluate assignment := by
  obtain ⟨results, _, solves⟩ := exists_solution acyclic assignment
  obtain ⟨resultsOther, evaluated, solvesOther⟩ := exists_solution acyclicOther assignment
  rw [evaluate_of_solves wellFormed acyclic solves, evaluate_eq_outcomes, Graph.outcomes, evaluated,
    outputs]
  refine congrArg (List.mapM id) (List.map_congr_left fun value driven => ?_)
  exact outcomes_of_needed wellFormed acyclic needed solves solvesOther driven (.inl rfl)

section Evaluate

variable (wellFormed : graph.WellFormed) (acyclic : graph.Acyclic)
  (strict : 1 ≤ graph.strictness.minArity) (fits : assignment.Fits graph)

include wellFormed acyclic strict fits

/-- Evaluating gives a pattern for each output, or one of the outputs has failed. -/
theorem evaluate_cases (solves : graph.Solves assignment outcomes) :
    (∃ patterns, graph.outputValues.map outcomes = patterns.map .ok ∧
      graph.evaluate assignment = .ok patterns) ∨
    (∃ value ∈ graph.outputValues, outcomes value = .error (.bits .divisionByZero)) ∧
      graph.evaluate assignment = .error (.bits .divisionByZero) := by
  have respects := solves.respects wellFormed acyclic strict fits
  rw [evaluate_of_solves wellFormed acyclic solves]
  refine (mapM_cases fun result member => ?_).imp_right fun ⟨member, failed⟩ =>
    ⟨List.mem_map.mp member, failed⟩
  obtain ⟨value, driven, rfl⟩ := List.mem_map.mp member
  obtain ⟨type, typed⟩ := (graph.holds_iff value).mp (wellFormed.holds_of_output driven)
  exact (respects.admits value type typed).imp_left fun ⟨bits, same, _⟩ => ⟨bits, same⟩

theorem evaluate_fails_iff : (∃ reason, graph.evaluate assignment = .error reason) ↔
    ∃ id, graph.Needs id ∧ graph.DividesByZero assignment id := by
  obtain ⟨results, _, solves⟩ := exists_solution acyclic assignment
  have respects := solves.respects wellFormed acyclic strict fits
  have cases := evaluate_cases wellFormed acyclic strict fits solves
  constructor
  · rintro ⟨reason, failed⟩
    rcases cases with ⟨patterns, _, succeeded⟩ | ⟨⟨value, driven, fails⟩, _⟩
    · nomatch succeeded.symm.trans failed
    · obtain ⟨id, reaches, divides⟩ := exists_dividesByZero wellFormed acyclic strict solves
        respects (wellFormed.holds_of_output driven) fails
      exact ⟨id, ⟨value, driven, reaches⟩, divides⟩
  · rintro ⟨id, ⟨value, driven, reaches⟩, divides⟩
    have failed := failed_of_dividesByZero wellFormed acyclic solves respects divides
    have fails : results.valueOf assignment value = .error (.bits .divisionByZero) := by
      rcases reaches with rfl | depends
      · exact failed
      · exact failed_of_dependsOn wellFormed solves respects depends failed
    rcases cases with ⟨patterns, same, _⟩ | ⟨_, failure⟩
    · have member := List.mem_map_of_mem (f := results.valueOf assignment) driven
      rw [same, fails] at member
      obtain ⟨_, _, impossible⟩ := List.mem_map.mp member
      nomatch impossible
    · exact ⟨_, failure⟩

theorem error_of_evaluate {reason : GraphError}
    (failed : graph.evaluate assignment = .error reason) : reason = .bits .divisionByZero := by
  obtain ⟨results, _, solves⟩ := exists_solution acyclic assignment
  rcases evaluate_cases wellFormed acyclic strict fits solves with ⟨_, _, other⟩ | ⟨_, other⟩
  · nomatch other.symm.trans failed
  · exact Except.error.inj (failed.symm.trans other)

end Evaluate

/-- Evaluating a graph without circles gives each value what it denotes, and so each output, in
order. Everything that is obtained has the width of its value. It fails exactly if an output
depends on a division by zero, which is then what the failure says, and operations that no output
depends on do not show in it. -/
theorem evaluate_denotes (reachable : graph.Reachable) (acyclic : graph.Acyclic)
    (strict : 1 ≤ graph.strictness.minArity) (fits : assignment.Fits graph) :
    (∃ results, graph.results assignment = .ok results ∧ ∀ value type,
      graph.typeOf value = some type →
        graph.Denotes assignment value (results.valueOf assignment value) ∧
          type.Admits (results.valueOf assignment value)) ∧
    (∃ denoted, List.Forall₂ (graph.Denotes assignment) graph.outputValues denoted ∧
      graph.evaluate assignment = denoted.mapM id) ∧
    ((∃ reason, graph.evaluate assignment = .error reason) ↔
      ∃ id, graph.Needs id ∧ graph.DividesByZero assignment id) ∧
    (∀ reason, graph.evaluate assignment = .error reason → reason = .bits .divisionByZero) ∧
    (∀ other : Graph, other.Acyclic → other.outputValues = graph.outputValues →
      (∀ id, graph.Needs id → other.operation? id = graph.operation? id) →
        other.evaluate assignment = graph.evaluate assignment) := by
  have wellFormed := reachable.wellFormed
  obtain ⟨results, evaluated, solves⟩ := exists_solution acyclic assignment
  have respects := solves.respects wellFormed acyclic strict fits
  refine ⟨⟨results, evaluated, fun value type typed => ⟨?_, respects.admits value type typed⟩⟩,
    ⟨_, ?_, evaluate_of_solves wellFormed acyclic solves⟩,
    evaluate_fails_iff wellFormed acyclic strict fits,
    fun reason => error_of_evaluate wellFormed acyclic strict fits,
    fun other acyclicOther outputs needed =>
      evaluate_of_needed wellFormed acyclic acyclicOther outputs needed assignment⟩
  · exact solves.denotes wellFormed acyclic ((graph.holds_iff value).mpr ⟨type, typed⟩)
  · refine List.forall₂_map_right_iff.mpr (List.forall₂_same.mpr fun value driven => ?_)
    exact solves.denotes wellFormed acyclic (wellFormed.holds_of_output driven)

/-- Whatever the input is, the quotient divides by zero, and the output fails with it. -/
theorem evaluate_denotes_maskedQuotient :
    let assignment : Assignment := fun _ => some ⟨byte.width, byte.positive, 7⟩
    maskedQuotient.Reachable ∧ maskedQuotient.Acyclic ∧ assignment.Fits maskedQuotient ∧
      maskedQuotient.Needs 1 ∧ maskedQuotient.DividesByZero assignment 1 ∧
        ∃ reason, maskedQuotient.evaluate assignment = .error reason := by
  intro assignment
  have fits : assignment.Fits maskedQuotient := fits_maskedQuotient rfl
  have needs : maskedQuotient.Needs 1 :=
    ⟨.result 2, by decide, .inr (.direct ⟨_, rfl, by decide⟩)⟩
  have found : maskedQuotient.operation? 0 =
      some (Bits.operation ⟨byte.width, byte.positive, 0⟩) := rfl
  have zero : maskedQuotient.Denotes assignment (.result 0)
      (Operation.combine (Bits.operation ⟨byte.width, byte.positive, 0⟩) []) :=
    .result found rfl fun _ _ _ _ there => by simp at there
  have divides : maskedQuotient.DividesByZero assignment 1 :=
    ⟨_, _, _, _, rfl, .inl rfl, rfl, zero, rfl⟩
  have failed := (evaluate_denotes reachable_maskedQuotient acyclic_maskedQuotient (by decide)
    fits).2.2.1.mpr ⟨1, needs, divides⟩
  exact ⟨reachable_maskedQuotient, acyclic_maskedQuotient, fits, needs, divides, failed⟩

end BitGraph.Graph
