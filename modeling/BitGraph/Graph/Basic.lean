/-
This file defines graphs of operations. A graph holds named inputs, operations
and named outputs. Next to every value stands the list of places that read it,
in the order in which they came to read it. An operation that was replaced
stays stored under its number and is only marked as no longer live, so numbers
remain valid over any sequence of edits.
-/

import BitGraph.Kind.Signature
import BitGraph.Names
import BitGraph.Operation

namespace BitGraph

/-- A place that reads a value. -/
inductive Use where
  /-- The operand of this index of the operation of this number. -/
  | operand (id index : Nat)
  /-- The output of this number. -/
  | output (index : Nat)
  deriving DecidableEq, Repr

/-- The written form of a use. -/
def Use.render : Use → String
  | .operand id index => "%" ++ Numeral.write 10 id ++ "[" ++ Numeral.write 10 index ++ "]"
  | .output index => "out" ++ Numeral.write 10 index

/-- A stored operation. -/
structure Node where
  operation : Operation
  /-- The operation has not been erased. -/
  live : Bool
  /-- The places that read the result. -/
  uses : List Use
  deriving DecidableEq, Repr

/-- A declared input. -/
structure Input where
  /-- The number of its name. -/
  name : Nat
  type : BitType
  /-- The places that read the input. -/
  uses : List Use
  deriving DecidableEq, Repr

/-- A declared output. -/
structure Output where
  /-- The number of its name. -/
  name : Nat
  /-- The value that drives it. -/
  value : Value
  deriving DecidableEq, Repr

/-- Inputs, operations and outputs. -/
structure Graph where
  /-- How strictly the operations are judged when they are stored. -/
  strictness : Strictness := {}
  names : Names := {}
  inputs : Arena Input := {}
  nodes : Arena Node := {}
  outputs : Arena Output := {}
  deriving DecidableEq, Repr

namespace Graph

/-! ### Operations -/

/-- The operation of a number, live or not. -/
def stored? (graph : Graph) (id : Nat) : Option Operation :=
  (graph.nodes.get? id).map Node.operation

/-- Whether a number names an operation that has not been erased. -/
def isLive (graph : Graph) (id : Nat) : Bool :=
  (graph.nodes.get? id).any Node.live

/-- The live operation of a number. -/
def operation? (graph : Graph) (id : Nat) : Option Operation :=
  ((graph.nodes.get? id).filter Node.live).map Node.operation

/-- The numbers of the live operations, in the order in which they were stored. -/
def liveIds (graph : Graph) : List Nat :=
  graph.nodes.ids.filter graph.isLive

/-- How many operations are live. -/
def liveCount (graph : Graph) : Nat :=
  graph.liveIds.length

/-- The operations that the operation of a number reads, one entry for each operand. -/
def producers (graph : Graph) (id : Nat) : List Nat :=
  ((graph.stored? id).map Operation.producers).getD []

/-! ### Values -/

/-- The type of a value that exists. -/
def typeOf (graph : Graph) : Value → Option BitType
  | .input index => (graph.inputs.get? index).map Input.type
  | .result id => (graph.operation? id).map Operation.type

/-- The live operation that produces a value. -/
def definition (graph : Graph) : Value → Option Operation
  | .input _ => none
  | .result id => graph.operation? id

/-- What a graph knows about values. -/
def scope (graph : Graph) : Scope :=
  ⟨graph.typeOf, graph.definition⟩

/-- Whether a value exists: it is a declared input or the result of a live operation. -/
def holds (graph : Graph) : Value → Bool
  | .input index => graph.inputs.contains index
  | .result id => graph.isLive id

/-- The places that read a value. -/
def uses (graph : Graph) : Value → List Use
  | .input index => ((graph.inputs.get? index).map Input.uses).getD []
  | .result id => ((graph.nodes.get? id).map Node.uses).getD []

/-- The values that drive the outputs, in order. -/
def outputValues (graph : Graph) : List Value :=
  graph.outputs.toList.map Output.value

end Graph

end BitGraph
