/-
This file defines how the places that read values are kept: a use list can be
changed, and a place can be made to read another value. Either leaves the other
alone; keeping both in step is the business of the edits. A change of a use list
shows in that list and nowhere else.
-/

import BitGraph.Graph.Basic

namespace BitGraph.Graph

/-- Change the list of places that read a value. -/
def changeUses (graph : Graph) (value : Value) (change : List Use → List Use) : Graph :=
  match value with
  | .input index =>
    { graph with
      inputs := graph.inputs.modify index fun input => { input with uses := change input.uses } }
  | .result id =>
    { graph with
      nodes := graph.nodes.modify id fun node => { node with uses := change node.uses } }

/-- The operands of an operation as the places that read them. -/
def readings (id : Nat) (operation : Operation) : List (Value × Use) :=
  operation.operands.zipIdx.map fun (value, index) => (value, .operand id index)

/-- Let one place read another value. The use lists are not touched. -/
def retarget (target : Value) (graph : Graph) : Use → Graph
  | .operand id index =>
    { graph with
      nodes := graph.nodes.modify id fun node =>
        { node with
          operation := { node.operation with
            operands := node.operation.operands.set index target } } }
  | .output index =>
    { graph with
      outputs := graph.outputs.modify index fun output => { output with value := target } }

/-! ### What a change of a use list leaves alone -/

@[simp] theorem operation?_changeUses (graph : Graph) (value : Value)
    (change : List Use → List Use) (id : Nat) :
    (graph.changeUses value change).operation? id = graph.operation? id := by
  cases value with
  | input index => rfl
  | result changed =>
    unfold operation? changeUses
    by_cases same : id = changed
    · subst same
      rw [Arena.get?_modify_self]
      cases graph.nodes.get? id with
      | none => rfl
      | some node => cases live : node.live <;> simp [Option.filter, live]
    · rw [Arena.get?_modify_other _ _ _ _ same]

@[simp] theorem typeOf_changeUses (graph : Graph) (value : Value)
    (change : List Use → List Use) : (graph.changeUses value change).typeOf = graph.typeOf := by
  funext other
  cases other with
  | result id => simp [typeOf]
  | input index =>
    cases value with
    | result changed => rfl
    | input changed =>
      unfold typeOf changeUses
      by_cases same : index = changed
      · subst same
        simp [Function.comp_def]
      · simp only
        rw [Arena.get?_modify_other _ _ _ _ same]

theorem uses_changeUses_other (graph : Graph) (value : Value) (change : List Use → List Use)
    (other : Value) (apart : other ≠ value) :
    (graph.changeUses value change).uses other = graph.uses other := by
  cases value with
  | input changed =>
    cases other with
    | result id => rfl
    | input index =>
      have differ : index ≠ changed := fun same => apart (congrArg Value.input same)
      unfold uses changeUses
      simp only
      rw [Arena.get?_modify_other _ _ _ _ differ]
  | result changed =>
    cases other with
    | input index => rfl
    | result id =>
      have differ : id ≠ changed := fun same => apart (congrArg Value.result same)
      unfold uses changeUses
      simp only
      rw [Arena.get?_modify_other _ _ _ _ differ]

/-- The use list of a value that exists is changed as asked for. -/
theorem uses_changeUses_self (graph : Graph) (value : Value) (change : List Use → List Use)
    (held : graph.holds value = true) :
    (graph.changeUses value change).uses value = change (graph.uses value) := by
  cases value with
  | input index =>
    obtain ⟨input, found⟩ := Option.isSome_iff_exists.mp
      ((graph.inputs.isSome_get?_iff index).mpr (of_decide_eq_true held))
    simp [uses, changeUses, found]
  | result id =>
    cases found : graph.nodes.get? id with
    | none => simp [holds, isLive, found] at held
    | some node => simp [uses, changeUses, found]

end BitGraph.Graph
