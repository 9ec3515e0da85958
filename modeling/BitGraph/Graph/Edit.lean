/-
This file defines the edits of a graph: declaring inputs and outputs, storing
operations, building what a proposal asks for, moving the uses of one value to
another, and erasing. Every edit that can be refused is an attempt. All checks
of an edit come before its first change, except where an edit is made of
smaller ones.
-/

import BitGraph.Attempt
import BitGraph.Blueprint
import BitGraph.Graph.Uses
import BitGraph.Replacement

namespace BitGraph.Graph

/-! ### Inputs and outputs -/

/-- Declare an input. -/
def addInput (graph : Graph) (name : String) (type : BitType) : Value × Graph :=
  let (id, names) := graph.names.intern name
  (.input graph.inputs.size, { graph with names, inputs := graph.inputs.push ⟨id, type, []⟩ })

/-- Declare an output that a value drives. -/
def addOutput (graph : Graph) (name : String) (value : Value) : Attempt Graph Unit :=
  if graph.holds value then
    let (id, names) := graph.names.intern name
    let use := Use.output graph.outputs.size
    .succeed () (changeUses { graph with names, outputs := graph.outputs.push ⟨id, value⟩ } value
      (· ++ [use]))
  else
    .fail (.unknownValue value) graph

/-! ### Storing operations -/

/-- Store an operation under the next number, and let it read its operands. -/
def store (graph : Graph) (operation : Operation) : Graph :=
  (readings graph.nodes.size operation).foldl
    (fun graph (value, use) => graph.changeUses value (· ++ [use]))
    { graph with nodes := graph.nodes.push ⟨operation, true, []⟩ }

/-- Store an operation that is well formed in the graph, wherever it was built. -/
def insert (graph : Graph) (operation : Operation) : Attempt Graph Value :=
  match operation.verify graph.scope graph.strictness with
  | .ok () => .succeed (.result graph.nodes.size) (graph.store operation)
  | .error reason => .fail reason graph

/-- Build an operation in the graph and store it. -/
def build (graph : Graph) (blueprint : Blueprint) : Attempt Graph Value :=
  match blueprint.build graph.scope graph.strictness with
  | .ok operation => graph.insert operation
  | .error reason => .fail reason graph

/-! ### Proposals -/

/-- Turn the operands of a proposal into values, building the pending constants in order. -/
def placeOperands : List Operand → Graph → Attempt Graph (List Value)
  | [], graph => .succeed [] graph
  | .existing value :: rest, graph =>
    (placeOperands rest graph).andThen fun values graph => .succeed (value :: values) graph
  | .pending bits :: rest, graph =>
    (graph.build (.constant bits)).andThen fun value graph =>
      (placeOperands rest graph).andThen fun values graph => .succeed (value :: values) graph

/-- Turn a proposal into a value, building what does not exist yet. Constants that were built
before a refusal stay. -/
def materialize (graph : Graph) : Replacement → Attempt Graph Value
  | .existing value =>
    if graph.holds value then .succeed value graph else .fail (.unknownValue value) graph
  | .constant bits => graph.build (.constant bits)
  | .fresh shape =>
    (placeOperands shape.operands graph).andThen fun operands graph =>
      graph.build (.general shape.kind operands shape.attr (some shape.type))

/-- Move all uses of one value to another of its type, behind the uses that the other one
has already. The result is their number. -/
def replaceUses (graph : Graph) (source target : Value) : Attempt Graph Nat :=
  if source = target then
    .succeed 0 graph
  else
    match graph.typeOf source, graph.typeOf target with
    | none, _ => .fail (.unknownValue source) graph
    | some _, none => .fail (.unknownValue target) graph
    | some sourceType, some targetType =>
      if sourceType = targetType then
        let moved := graph.uses source
        let graph := moved.foldl (retarget target) (graph.changeUses source fun _ => [])
        .succeed moved.length (graph.changeUses target (· ++ moved))
      else
        .fail (.replacementType source target) graph

/-- Erase an operation that nothing reads: it stops reading its operands and is no longer
live. -/
def erase (graph : Graph) (id : Nat) : Attempt Graph Unit :=
  match graph.operation? id with
  | none => .fail (.unknownValue (.result id)) graph
  | some operation =>
    if (graph.uses (.result id)).isEmpty then
      let graph := (readings id operation).foldl
        (fun graph (value, use) => graph.changeUses value (·.filter (· ≠ use))) graph
      .succeed () { graph with
        nodes := graph.nodes.modify id fun node => { node with live := false } }
    else
      .fail (.inUse id) graph

/-- Put a proposal in the place of an operation: build it, move all uses to it and erase the
operation. The result is the value that stands for the operation from now on; an
operation that is proposed for itself stays. -/
def replace (graph : Graph) (id : Nat) (replacement : Replacement) : Attempt Graph Value :=
  if graph.isLive id then
    (graph.materialize replacement).andThen fun value graph =>
      if value = .result id then
        .succeed value graph
      else
        (graph.replaceUses (.result id) value).andThen fun _ graph =>
          (graph.erase id).andThen fun _ graph => .succeed value graph
  else
    .fail (.unknownValue (.result id)) graph

end BitGraph.Graph
