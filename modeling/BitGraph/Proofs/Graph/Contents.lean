/-
This file says what storing, redirecting and dropping do to the contents of a
graph: its live operations, its inputs and its outputs. Storing adds one live
operation, redirecting lets every place that reads one value read another one
instead, and dropping takes one live operation away. All other edits and all
passes are made of these three and of declarations, so what is known of the
three is known of any history.
-/

import BitGraph.Graph.Edit
import BitGraph.Graph.WellFormed
import BitGraph.Proofs.Operation.Typing
import Mathlib

namespace BitGraph

namespace Graph

/-! ### Views of a graph -/

/-- The names and types of the inputs, in order. -/
def declaredInputs (graph : Graph) : List (Nat × BitType) :=
  graph.inputs.toList.map fun input => (input.name, input.type)

theorem typeOf_input (graph : Graph) (index : Nat) :
    graph.typeOf (.input index) = (graph.declaredInputs[index]?).map Prod.snd := by
  simp [typeOf, declaredInputs, Arena.get?, Arena.toList, Function.comp_def]

theorem operation?_eq_some_iff (graph : Graph) (id : Nat) (operation : Operation) :
    graph.operation? id = some operation ↔
      ∃ node, graph.nodes.get? id = some node ∧ node.live = true ∧
        node.operation = operation := by
  simp [operation?, Option.filter_eq_some_iff, and_assoc]

theorem isLive_iff (graph : Graph) (id : Nat) :
    graph.isLive id = true ↔ ∃ operation, graph.operation? id = some operation := by
  unfold isLive operation?
  cases graph.nodes.get? id with
  | none => simp
  | some node => simp [Option.filter_some]

/-- Numbers of live operations have been given out. -/
theorem lt_size_of_operation? {graph : Graph} {id : Nat} {operation : Operation}
    (found : graph.operation? id = some operation) : id < graph.nodes.size := by
  obtain ⟨node, stored, _⟩ := (graph.operation?_eq_some_iff id operation).mp found
  rw [← graph.nodes.isSome_get?_iff, stored]
  rfl

theorem stored?_of_operation? {graph : Graph} {id : Nat} {operation : Operation}
    (found : graph.operation? id = some operation) : graph.stored? id = some operation := by
  obtain ⟨node, stored, _, same⟩ := (graph.operation?_eq_some_iff id operation).mp found
  rw [stored?, stored, ← same]
  rfl

/-- The next number to be given out names no live operation. -/
theorem operation?_size (graph : Graph) : graph.operation? graph.nodes.size = none := by
  cases found : graph.operation? graph.nodes.size with
  | none => rfl
  | some operation => exact absurd (lt_size_of_operation? found) (Nat.lt_irrefl _)

/-- The values that exist are those that have a type. -/
theorem holds_iff (graph : Graph) (value : Value) :
    graph.holds value = true ↔ ∃ type, graph.typeOf value = some type := by
  cases value with
  | input index =>
    rw [← Option.isSome_iff_exists, typeOf, Option.isSome_map, Arena.isSome_get?_iff]
    exact decide_eq_true_iff
  | result id => simp [holds, isLive_iff, typeOf]

theorem mem_liveIds_iff (graph : Graph) (id : Nat) :
    id ∈ graph.liveIds ↔ ∃ operation, graph.operation? id = some operation := by
  rw [liveIds, List.mem_filter, isLive_iff, Arena.ids, List.mem_range]
  constructor
  · exact And.right
  · rintro ⟨operation, found⟩
    exact ⟨lt_size_of_operation? found, operation, found⟩

theorem mem_liveIds_iff_isLive (graph : Graph) (id : Nat) :
    id ∈ graph.liveIds ↔ graph.isLive id = true := by
  rw [mem_liveIds_iff, isLive_iff]

theorem ascending_liveIds (graph : Graph) : graph.liveIds.Pairwise (· < ·) :=
  List.pairwise_lt_range.filter _

theorem nodup_liveIds (graph : Graph) : graph.liveIds.Nodup :=
  graph.ascending_liveIds.nodup

theorem typeOf_result {graph : Graph} {id : Nat} {operation : Operation}
    (found : graph.operation? id = some operation) :
    graph.typeOf (.result id) = some operation.type := by
  rw [typeOf, found]
  rfl

theorem producers_of_operation? {graph : Graph} {id : Nat} {operation : Operation}
    (found : graph.operation? id = some operation) :
    graph.producers id = operation.producers := by
  rw [producers, stored?_of_operation? found]
  rfl

/-! ### What stands still -/

/-- What no change of operations touches: the strictness, the names and the inputs. -/
structure Frame (before after : Graph) : Prop where
  strictness : after.strictness = before.strictness
  names : after.names = before.names
  inputs : after.declaredInputs = before.declaredInputs

theorem Frame.refl (graph : Graph) : Frame graph graph :=
  ⟨rfl, rfl, rfl⟩

theorem Frame.trans {first second third : Graph} (left : Frame first second)
    (right : Frame second third) : Frame first third where
  strictness := right.strictness.trans left.strictness
  names := right.names.trans left.names
  inputs := right.inputs.trans left.inputs

theorem Frame.symm {before after : Graph} (frame : Frame before after) : Frame after before :=
  ⟨frame.strictness.symm, frame.names.symm, frame.inputs.symm⟩

theorem Frame.typeOf_input {before after : Graph} (frame : Frame before after) (index : Nat) :
    after.typeOf (.input index) = before.typeOf (.input index) := by
  rw [Graph.typeOf_input, Graph.typeOf_input, frame.inputs]

/-- A change of the use lists changes nothing else. -/
theorem frame_changeUses (graph : Graph) (value : Value) (change : List Use → List Use) :
    Frame graph (graph.changeUses value change) := by
  cases value with
  | result id => exact ⟨rfl, rfl, rfl⟩
  | input changed =>
    refine ⟨rfl, rfl, List.ext_getElem? fun index => ?_⟩
    have same := Arena.get?_modify_other graph.inputs changed
      (fun input => { input with uses := change input.uses }) index
    have self := Arena.get?_modify_self graph.inputs changed
      fun input => { input with uses := change input.uses }
    simp only [declaredInputs, changeUses, List.getElem?_map, Arena.toList, Arena.get?,
      Array.getElem?_toList] at same self ⊢
    by_cases here : index = changed
    · rw [here, self, Option.map_map]
      rfl
    · rw [same here]

@[simp] theorem outputs_changeUses (graph : Graph) (value : Value)
    (change : List Use → List Use) : (graph.changeUses value change).outputs = graph.outputs := by
  cases value <;> rfl

@[simp] theorem size_changeUses (graph : Graph) (value : Value) (change : List Use → List Use) :
    (graph.changeUses value change).nodes.size = graph.nodes.size := by
  cases value with
  | input index => rfl
  | result id => exact Arena.size_modify _ _ _

@[simp] theorem holds_changeUses (graph : Graph) (value : Value) (change : List Use → List Use)
    (other : Value) : (graph.changeUses value change).holds other = graph.holds other := by
  rw [Bool.eq_iff_iff, holds_iff, holds_iff, typeOf_changeUses]

@[simp] theorem readAt?_changeUses (graph : Graph) (value : Value)
    (change : List Use → List Use) (use : Use) :
    (graph.changeUses value change).readAt? use = graph.readAt? use := by
  cases use <;> simp [readAt?]

/-- Changes of use lists, one after the other, keep whatever each of them keeps. -/
theorem foldl_changeUses_same {View : Type} (view : Graph → View)
    (same : ∀ graph value change, view (changeUses graph value change) = view graph)
    (change : Use → List Use → List Use) (pairs : List (Value × Use)) (graph : Graph) :
    view (pairs.foldl (fun graph pair => graph.changeUses pair.1 (change pair.2)) graph) =
      view graph := by
  induction pairs generalizing graph with
  | nil => rfl
  | cons pair rest inductionHypothesis =>
    rw [List.foldl_cons, inductionHypothesis, same]

theorem frame_foldl_changeUses (change : Use → List Use → List Use) (pairs : List (Value × Use))
    (graph : Graph) :
    Frame graph
      (pairs.foldl (fun graph pair => graph.changeUses pair.1 (change pair.2)) graph) := by
  induction pairs generalizing graph with
  | nil => exact .refl graph
  | cons pair rest inductionHypothesis =>
    exact (frame_changeUses graph pair.1 (change pair.2)).trans (inductionHypothesis _)

/-- Changes of use lists, one after the other, change the list of a value by those that are
meant for it. -/
theorem uses_foldl_changeUses (change : Use → List Use → List Use) (pairs : List (Value × Use))
    (graph : Graph) (value : Value)
    (held : graph.holds value = true ∨ ∀ pair ∈ pairs, pair.1 ≠ value) :
    (pairs.foldl (fun graph pair => graph.changeUses pair.1 (change pair.2)) graph).uses value =
      ((pairs.filter (·.1 = value)).map Prod.snd).foldl (fun uses use => change use uses)
        (graph.uses value) := by
  induction pairs generalizing graph with
  | nil => rfl
  | cons pair rest inductionHypothesis =>
    have heldNext : (graph.changeUses pair.1 (change pair.2)).holds value = true ∨
        ∀ pair ∈ rest, pair.1 ≠ value := by
      rw [holds_changeUses]
      exact held.imp_right fun apart pair member => apart pair (List.mem_cons_of_mem _ member)
    rw [List.foldl_cons, inductionHypothesis _ heldNext]
    by_cases here : pair.1 = value
    · have heldHere : graph.holds value = true :=
        held.resolve_right fun apart => apart pair List.mem_cons_self here
      rw [List.filter_cons_of_pos (by simpa using here), ← here,
        uses_changeUses_self _ _ _ (here ▸ heldHere)]
      rfl
    · rw [List.filter_cons_of_neg (by simpa using here),
        uses_changeUses_other _ _ _ _ (Ne.symm here)]

/-! ### Storing an operation -/

/-- The second graph holds all that the first one holds, and perhaps more operations. -/
structure Extends (before after : Graph) : Prop extends Frame before after where
  operation? : ∀ id operation, before.operation? id = some operation →
    after.operation? id = some operation
  outputs : after.outputs = before.outputs

theorem Extends.refl (graph : Graph) : Extends graph graph :=
  ⟨.refl graph, fun _ _ found => found, rfl⟩

theorem Extends.trans {first second third : Graph} (left : Extends first second)
    (right : Extends second third) : Extends first third where
  toFrame := left.toFrame.trans right.toFrame
  operation? id operation found :=
    right.operation? id operation (left.operation? id operation found)
  outputs := right.outputs.trans left.outputs

theorem Extends.typeOf {before after : Graph} (extends_ : Extends before after) {value : Value}
    {type : BitType} (typed : before.typeOf value = some type) :
    after.typeOf value = some type := by
  cases value with
  | input index => rw [extends_.typeOf_input, typed]
  | result id =>
    obtain ⟨operation, found, rfl⟩ := Option.map_eq_some_iff.mp typed
    exact typeOf_result (extends_.operation? id operation found)

theorem Extends.holds {before after : Graph} (extends_ : Extends before after) {value : Value}
    (held : before.holds value = true) : after.holds value = true := by
  obtain ⟨type, typed⟩ := (before.holds_iff value).mp held
  exact (after.holds_iff value).mpr ⟨type, extends_.typeOf typed⟩

theorem operation?_store (graph : Graph) (operation : Operation) (id : Nat) :
    (graph.store operation).operation? id =
      if id = graph.nodes.size then some operation else graph.operation? id := by
  have folded := foldl_changeUses_same (fun graph => graph.operation? id)
    (fun graph value change => graph.operation?_changeUses value change id)
    (fun use uses => uses ++ [use]) (readings graph.nodes.size operation)
    { graph with nodes := graph.nodes.push ⟨operation, true, []⟩ }
  refine folded.trans ?_
  by_cases new : id = graph.nodes.size
  · rw [if_pos new, new]
    simp [Graph.operation?, Option.filter_some]
  · rw [if_neg new]
    simp only [Graph.operation?]
    rw [Arena.get?_push_other _ _ _ new]

theorem operation?_store_self (graph : Graph) (operation : Operation) :
    (graph.store operation).operation? graph.nodes.size = some operation := by
  rw [operation?_store, if_pos rfl]

theorem extends_store (graph : Graph) (operation : Operation) :
    Extends graph (graph.store operation) where
  toFrame := by
    have pushed : Frame graph { graph with nodes := graph.nodes.push ⟨operation, true, []⟩ } :=
      ⟨rfl, rfl, rfl⟩
    exact pushed.trans (frame_foldl_changeUses (fun use uses => uses ++ [use]) _ _)
  operation? id other found := by
    rw [operation?_store, if_neg (Nat.ne_of_lt (lt_size_of_operation? found)), found]
  outputs := foldl_changeUses_same Graph.outputs outputs_changeUses
    (fun use uses => uses ++ [use]) _ _

theorem size_store (graph : Graph) (operation : Operation) :
    (graph.store operation).nodes.size = graph.nodes.size + 1 :=
  (foldl_changeUses_same (fun graph => graph.nodes.size) size_changeUses
    (fun use uses => uses ++ [use]) _ _).trans (Arena.size_push _ _)

/-! ### Redirecting a value -/

/-- The graph in which the places that read one value read another one. -/
def redirect (graph : Graph) (source target : Value) : Graph :=
  let moved := graph.uses source
  (moved.foldl (retarget target) (graph.changeUses source fun _ => [])).changeUses target
    (· ++ moved)

theorem operation?_retarget (target : Value) (graph : Graph) (use : Use) (id : Nat) :
    (retarget target graph use).operation? id = (graph.operation? id).map fun operation =>
      { operation with
        operands := operation.operands.mapIdx fun index value =>
          if Use.operand id index = use then target else value } := by
  cases use with
  | output index => simp [retarget, Graph.operation?, Function.comp_def, mapIdx_item]
  | operand changed position =>
    unfold retarget Graph.operation?
    by_cases here : id = changed
    · subst here
      rw [Arena.get?_modify_self]
      cases graph.nodes.get? id with
      | none => rfl
      | some node =>
        have same : node.operation.operands.set position target =
            node.operation.operands.mapIdx fun index value =>
              if index = position then target else value := by
          refine (List.mapIdx_eq_iff.mpr fun index => ?_).symm
          rw [List.getElem?_set']
          by_cases there : position = index
          · subst there
            rw [if_pos rfl]
            cases node.operation.operands[position]? <;> simp
          · rw [if_neg there]
            simp [Ne.symm there]
        cases live : node.live <;> simp [Option.filter_some, live, same]
    · simp only
      rw [Arena.get?_modify_other _ _ _ _ here]
      simp [here, Function.comp_def, mapIdx_item]

theorem outputs_retarget (target : Value) (graph : Graph) (use : Use) :
    (retarget target graph use).outputs.toList =
      graph.outputs.toList.mapIdx fun index output =>
        if Use.output index = use then { output with value := target } else output := by
  cases use with
  | operand changed position => simp [retarget, mapIdx_item]
  | output changed =>
    refine List.ext_getElem? fun index => ?_
    simp only [retarget, Arena.toList, Arena.modify, List.getElem?_mapIdx, Array.getElem?_toList,
      Array.getElem?_modify, Use.output.injEq]
    by_cases here : changed = index
    · simp [here]
    · simp [here, Ne.symm here]

theorem operation?_foldl_retarget (target : Value) (moved : List Use) (graph : Graph) (id : Nat) :
    (moved.foldl (retarget target) graph).operation? id =
      (graph.operation? id).map fun operation =>
        { operation with
          operands := operation.operands.mapIdx fun index value =>
            if Use.operand id index ∈ moved then target else value } := by
  induction moved generalizing graph with
  | nil => simp [mapIdx_item]
  | cons use rest inductionHypothesis =>
    rw [List.foldl_cons, inductionHypothesis, operation?_retarget, Option.map_map]
    refine congrArg (Option.map · _) (funext fun operation => ?_)
    simp only [Function.comp_apply, List.mapIdx_mapIdx, List.mem_cons]
    congr 2
    funext index value
    by_cases first : Use.operand id index = use <;> simp [first]

theorem outputs_foldl_retarget (target : Value) (moved : List Use) (graph : Graph) :
    (moved.foldl (retarget target) graph).outputs.toList =
      graph.outputs.toList.mapIdx fun index output =>
        if Use.output index ∈ moved then { output with value := target } else output := by
  induction moved generalizing graph with
  | nil => simp [mapIdx_item]
  | cons use rest inductionHypothesis =>
    rw [List.foldl_cons, inductionHypothesis, outputs_retarget, List.mapIdx_mapIdx]
    congr 1
    funext index output
    by_cases first : Use.output index = use <;> simp [first]

/-- Retargeting leaves the inputs and the use lists alone. -/
theorem retarget_same (target : Value) (graph : Graph) (use : Use) :
    Frame graph (retarget target graph use) ∧
      (∀ value, (retarget target graph use).uses value = graph.uses value) ∧
      (retarget target graph use).nodes.size = graph.nodes.size := by
  cases use with
  | output index => exact ⟨⟨rfl, rfl, rfl⟩, fun value => by cases value <;> rfl, rfl⟩
  | operand changed position =>
    refine ⟨⟨rfl, rfl, rfl⟩, fun value => ?_, Arena.size_modify _ _ _⟩
    cases value with
    | input index => rfl
    | result id =>
      unfold retarget uses
      by_cases here : id = changed
      · subst here
        simp [Function.comp_def]
      · simp only
        rw [Arena.get?_modify_other _ _ _ _ here]

theorem foldl_retarget_same (target : Value) (moved : List Use) (graph : Graph) :
    Frame graph (moved.foldl (retarget target) graph) ∧
      (∀ value, (moved.foldl (retarget target) graph).uses value = graph.uses value) ∧
      (moved.foldl (retarget target) graph).nodes.size = graph.nodes.size := by
  induction moved generalizing graph with
  | nil => exact ⟨.refl graph, fun _ => rfl, rfl⟩
  | cons use rest inductionHypothesis =>
    obtain ⟨frame, uses, size⟩ := inductionHypothesis (retarget target graph use)
    obtain ⟨frameHere, usesHere, sizeHere⟩ := retarget_same target graph use
    exact ⟨frameHere.trans frame, fun value => (uses value).trans (usesHere value),
      size.trans sizeHere⟩

theorem frame_redirect (graph : Graph) (source target : Value) :
    Frame graph (graph.redirect source target) :=
  ((frame_changeUses graph source fun _ => []).trans
    (foldl_retarget_same target _ _).1).trans
      (frame_changeUses _ target (· ++ graph.uses source))

theorem size_redirect (graph : Graph) (source target : Value) :
    (graph.redirect source target).nodes.size = graph.nodes.size := by
  rw [redirect, size_changeUses, (foldl_retarget_same target _ _).2.2, size_changeUses]

theorem readAt?_operand {graph : Graph} {id : Nat} {operation : Operation}
    (found : graph.operation? id = some operation) (index : Nat) :
    graph.readAt? (.operand id index) = operation.operands[index]? := by
  rw [readAt?, found]
  rfl

theorem readAt?_output (graph : Graph) (index : Nat) :
    graph.readAt? (.output index) = (graph.outputs.toList[index]?).map Output.value := by
  simp [readAt?, Arena.get?, Arena.toList]

/-- Since the use lists are exact, redirecting reaches every operand that reads the value. -/
theorem operation?_redirect {graph : Graph} (wellFormed : graph.WellFormed)
    (source target : Value) (id : Nat) :
    (graph.redirect source target).operation? id =
      (graph.operation? id).map (Operation.substitute source target) := by
  rw [redirect, operation?_changeUses, operation?_foldl_retarget, operation?_changeUses]
  cases found : graph.operation? id with
  | none => rfl
  | some operation =>
    have operands : (operation.operands.mapIdx fun index value =>
        if Use.operand id index ∈ graph.uses source then target else value) =
          operation.operands.map (Value.substitute source target) := by
      refine List.mapIdx_eq_iff.mpr fun index => ?_
      rw [List.getElem?_map]
      cases here : operation.operands[index]? with
      | none => rfl
      | some value =>
        have member : Use.operand id index ∈ graph.uses source ↔ value = source := by
          rw [wellFormed.mem_uses_iff, readAt?_operand found, here]
          exact Option.some_inj
        simp [member, Value.substitute]
    simp [operands, Operation.substitute]

/-- Redirecting reaches every output that the value drives. -/
theorem outputs_redirect {graph : Graph} (wellFormed : graph.WellFormed)
    (source target : Value) :
    (graph.redirect source target).outputs.toList = graph.outputs.toList.map fun output =>
      { output with value := Value.substitute source target output.value } := by
  rw [redirect, outputs_changeUses, outputs_foldl_retarget, outputs_changeUses]
  refine List.mapIdx_eq_iff.mpr fun index => ?_
  rw [List.getElem?_map]
  cases here : graph.outputs.toList[index]? with
  | none => rfl
  | some output =>
    have member : Use.output index ∈ graph.uses source ↔ output.value = source := by
      rw [wellFormed.mem_uses_iff, readAt?_output, here]
      exact Option.some_inj
    by_cases driven : output.value = source <;> simp [member, Value.substitute, driven]

theorem typeOf_redirect {graph : Graph} (wellFormed : graph.WellFormed)
    (source target value : Value) :
    (graph.redirect source target).typeOf value = graph.typeOf value := by
  cases value with
  | input index => exact (frame_redirect graph source target).typeOf_input index
  | result id =>
    rw [typeOf, operation?_redirect wellFormed, Option.map_map]
    rfl

/-! ### Dropping an operation -/

/-- The graph in which an operation no longer reads its operands and is no longer live. -/
def drop (graph : Graph) (id : Nat) (operation : Operation) : Graph :=
  let released := (readings id operation).foldl
    (fun graph (value, use) => graph.changeUses value (·.filter (· ≠ use))) graph
  { released with nodes := released.nodes.modify id fun node => { node with live := false } }

theorem operation?_drop (graph : Graph) (id : Nat) (operation : Operation) (other : Nat) :
    (graph.drop id operation).operation? other =
      if other = id then none else graph.operation? other := by
  have folded := foldl_changeUses_same (fun graph => graph.operation? other)
    (fun graph value change => graph.operation?_changeUses value change other)
    (fun use uses => uses.filter (· ≠ use)) (readings id operation) graph
  by_cases here : other = id
  · rw [if_pos here, here]
    unfold drop Graph.operation?
    rw [Arena.get?_modify_self]
    cases Arena.get? _ id <;> simp
  · rw [if_neg here, ← folded]
    unfold drop Graph.operation?
    rw [Arena.get?_modify_other _ _ _ _ here]

/-- What is left after an operation was dropped was there before. -/
theorem extends_drop (graph : Graph) (id : Nat) (operation : Operation) :
    Extends (graph.drop id operation) graph where
  toFrame := by
    have frame := frame_foldl_changeUses (fun use uses => uses.filter (· ≠ use))
      (readings id operation) graph
    exact ⟨frame.strictness.symm, frame.names.symm, frame.inputs.symm⟩
  operation? other kept found := by
    rw [operation?_drop] at found
    split at found
    · cases found
    · exact found
  outputs := (foldl_changeUses_same Graph.outputs outputs_changeUses
    (fun use uses => uses.filter (· ≠ use)) _ _).symm

theorem size_drop (graph : Graph) (id : Nat) (operation : Operation) :
    (graph.drop id operation).nodes.size = graph.nodes.size :=
  (Arena.size_modify _ _ _).trans (foldl_changeUses_same (fun graph => graph.nodes.size)
    size_changeUses (fun use uses => uses.filter (· ≠ use)) _ _)

end Graph

end BitGraph
