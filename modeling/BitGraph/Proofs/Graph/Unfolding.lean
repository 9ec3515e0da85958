/-
This file proves what holds of the expressions that values stand for. Without
circles each value stands for one. Where no two operations are equal, different
values stand for different expressions. And where operations share a place, as
equal ones do of which one gives way to the other, what a value has moved to stands
for the same expression, and has the same result.
-/

import BitGraph.Graph.Expression
import BitGraph.Proofs.Graph.Refinement

namespace BitGraph.Graph

variable {graph : Graph} {id : Nat} {operation : Operation} {value : Value}
  {expression : Expression}

/-! ### Operands of expressions -/

theorem Unfolds.of_operands {operands : List Expression}
    (found : graph.operation? id = some operation)
    (each : List.Forall₂ graph.Unfolds operation.operands operands) :
    graph.Unfolds (.result id) (.apply operation.kind operands operation.attr operation.type) := by
  refine .result found each.length_eq.symm fun index read reading here there => ?_
  obtain ⟨inside, rfl⟩ := List.getElem?_eq_some_iff.mp here
  obtain ⟨inside', rfl⟩ := List.getElem?_eq_some_iff.mp there
  exact (List.forall₂_iff_get.mp each).2 index inside inside'

/-- Only an operation stands for an operation on expressions. -/
theorem Unfolds.exists_operation {kind : Kind} {operands : List Expression} {attr : Attribute}
    {type : BitType} (unfolds : graph.Unfolds value (.apply kind operands attr type)) :
    ∃ id operation, value = .result id ∧ graph.operation? id = some operation ∧
      operation.kind = kind ∧ operation.attr = attr ∧ operation.type = type ∧
        List.Forall₂ graph.Unfolds operation.operands operands := by
  generalize same : Expression.apply kind operands attr type = expression at unfolds
  cases unfolds with
  | input index => cases same
  | @result id operation operands' found sameLength each =>
    cases same
    refine ⟨id, operation, rfl, found, rfl, rfl, rfl,
      List.forall₂_iff_get.mpr ⟨sameLength.symm, ?_⟩⟩
    exact fun index here there =>
      each index _ _ (List.getElem?_eq_getElem here) (List.getElem?_eq_getElem there)

/-! ### One expression for each value -/

/-- Without circles, every value that exists stands for an expression. -/
theorem Acyclic.exists_unfolds (acyclic : graph.Acyclic) (wellFormed : graph.WellFormed)
    (held : graph.holds value = true) : ∃ expression, graph.Unfolds value expression := by
  obtain ⟨rank, ranked⟩ := acyclic_iff_exists_ranked.mp acyclic
  induction height : rank value using Nat.strong_induction_on generalizing value with
  | _ height inductionHypothesis =>
    cases value with
    | input index => exact ⟨_, .input index⟩
    | result id =>
      obtain ⟨operation, found⟩ := (graph.isLive_iff id).mp held
      have each : ∀ read ∈ operation.operands, ∃ expression, graph.Unfolds read expression :=
        fun read member => by
          have reads : graph.Reads id read := ⟨operation, found, member⟩
          exact inductionHypothesis _ (height ▸ ranked.reads id read reads)
            (wellFormed.holds_of_reads reads) rfl
      obtain ⟨operands, unfold⟩ := exists_forall₂_of_forall each
      exact ⟨_, .of_operands found unfold⟩

/-- No two live operations are equal. -/
def Distinct (graph : Graph) : Prop :=
  ∀ first second operation, graph.operation? first = some operation →
    graph.operation? second = some operation → first = second

/-- Where no two operations are equal, no two values stand for the same expression. -/
theorem Distinct.value_unique (distinct : graph.Distinct) {other : Value}
    (left : graph.Unfolds value expression) (right : graph.Unfolds other expression) :
    value = other := by
  induction left generalizing other with
  | input index =>
    cases right
    rfl
  | @result id operation operands found sameLength _ inductionHypothesis =>
    obtain ⟨number, stored, rfl, there, kind, attr, type, unfold⟩ := right.exists_operation
    have sameOperands : operation.operands = stored.operands := by
      refine List.ext_getElem (sameLength.symm.trans unfold.length_eq.symm)
        fun index here there => ?_
      have inside : index < operands.length := sameLength.symm ▸ here
      exact inductionHypothesis index _ _ (List.getElem?_eq_getElem here)
        (List.getElem?_eq_getElem inside) ((List.forall₂_iff_get.mp unfold).2 index there inside)
    have same : operation = stored := by
      cases operation
      cases stored
      cases kind
      cases attr
      cases type
      cases sameOperands
      rfl
    exact congrArg Value.result (distinct id number operation found (same ▸ there))

/-! ### Sharing operations -/

/-- A graph has the operations and the outputs of another one, which may share places in it: each
value of that one has moved to one of this. -/
structure Shares (before : Graph) (move : Value → Value) (after : Graph) : Prop where
  input : ∀ index, move (.input index) = .input index
  result : ∀ id operation, before.operation? id = some operation → ∃ place,
    move (.result id) = .result place ∧
      after.operation? place = some { operation with operands := operation.operands.map move }
  outputs : after.outputValues = before.outputValues.map move

namespace Shares

variable {before middle after : Graph} {move onward : Value → Value}

theorem refl (graph : Graph) : Shares graph (fun value => value) graph where
  input _ := rfl
  result id operation found := by
    refine ⟨id, rfl, ?_⟩
    rw [List.map_id', found]
  outputs := (List.map_id' _).symm

theorem trans (first : Shares before move middle) (second : Shares middle onward after) :
    Shares before (fun value => onward (move value)) after where
  input index := by rw [first.input, second.input]
  result id operation found := by
    obtain ⟨between, moved, there⟩ := first.result id operation found
    obtain ⟨place, movedOn, here⟩ := second.result between _ there
    refine ⟨place, (congrArg onward moved).trans movedOn, here.trans ?_⟩
    rw [List.map_map]
    rfl
  outputs := by
    rw [second.outputs, first.outputs, List.map_map]
    rfl

/-- What a value has moved to stands for the expression that it stood for. -/
theorem unfolds (shares : Shares before move after) (unfolds : before.Unfolds value expression) :
    after.Unfolds (move value) expression := by
  induction unfolds with
  | input index =>
    rw [shares.input]
    exact .input index
  | @result id operation operands found sameLength _ inductionHypothesis =>
    obtain ⟨place, moved, there⟩ := shares.result id operation found
    have each : List.Forall₂ after.Unfolds (operation.operands.map move) operands := by
      refine List.forall₂_map_left_iff.mpr (List.forall₂_iff_get.mpr ⟨sameLength.symm, ?_⟩)
      exact fun index inside inside' => inductionHypothesis index _ _
        (List.getElem?_eq_getElem inside) (List.getElem?_eq_getElem inside')
    have built := Unfolds.of_operands there each
    rwa [moved]

/-- Each value has the result of what it has moved to. -/
theorem solves (shares : Shares before move after) {assignment : Assignment} {outcomes : Outcomes}
    (solves : after.Solves assignment outcomes) :
    before.Solves assignment fun value => outcomes (move value) where
  input index := by rw [shares.input, solves.input]
  result id operation found := by
    obtain ⟨place, moved, there⟩ := shares.result id operation found
    rw [moved, solves.result place _ there, List.map_map]
    unfold Operation.combine
    exact congrArg _ (funext fun arguments => Operation.evaluate_eq_of_parts rfl rfl rfl arguments)

/-- Sharing operations changes no result, whatever the inputs are given. -/
theorem outcomes_eq (shares : Shares before move after) (wellFormed : before.WellFormed)
    (acyclic : before.Acyclic) (wellFormedAfter : after.WellFormed) (acyclicAfter : after.Acyclic)
    (assignment : Assignment) : after.outcomes assignment = before.outcomes assignment := by
  obtain ⟨results, _, solution⟩ := exists_solution acyclicAfter assignment
  rw [outcomes_of_solves wellFormedAfter acyclicAfter solution,
    outcomes_of_solves wellFormed acyclic (shares.solves solution), shares.outputs, List.map_map]
  rfl

end Shares

/-- An operation that gives way to an equal one shares its place. -/
theorem shares_supplant {first : Nat} (wellFormed : graph.WellFormed) (apart : id ≠ first)
    (found : graph.operation? id = some operation)
    (equal : graph.operation? first = some operation) :
    graph.Shares (Value.substitute (.result id) (.result first))
      (graph.supplant id operation (.result first)) where
  input index := by
    have other : Value.input index ≠ .result id := nofun
    exact Value.substitute_other other
  result number stored there := by
    by_cases same : number = id
    · subst same
      cases found.symm.trans there
      refine ⟨first, Value.substitute_self _ _, ?_⟩
      rw [operation?_supplant wellFormed, if_neg apart.symm, equal]
      rfl
    · refine ⟨number, Value.substitute_other fun read => same (Value.result.inj read), ?_⟩
      rw [operation?_supplant wellFormed, if_neg same, there]
      rfl
  outputs := outputValues_supplant wellFormed

end BitGraph.Graph
