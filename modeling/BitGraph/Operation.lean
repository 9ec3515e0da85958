/-
This file defines operations as they are stored and written, and what a reader
of an operation knows about the values it mentions. An operation is a kind, a
list of operands, an attribute and a result type; nothing forces these to fit
together, and the typing rules say when they do. A scope answers for values: it
gives their types and the operations that produce them.
-/

import BitGraph.BitType
import BitGraph.Kind.Basic
import BitGraph.Value

namespace BitGraph

/-- What an operation carries besides its operands. -/
inductive Attribute where
  /-- Nothing. -/
  | none
  /-- The magnitude of a constant. -/
  | constant (magnitude : Nat)
  /-- The lowest bit of a slice. -/
  | extract (lowBit : Nat)
  deriving DecidableEq, Repr

/-- An operation. -/
structure Operation where
  kind : Kind
  operands : List Value
  attr : Attribute
  /-- The type of the result. -/
  type : BitType
  deriving DecidableEq, Repr

/-- Items separated by commas, the first one set off by a blank. -/
def renderOperands (items : List String) : String :=
  if items.isEmpty then "" else " " ++ ", ".intercalate items

namespace Operation

/-- The lowest bit, where the operation carries one. -/
def lowBit? (operation : Operation) : Option Nat :=
  match operation.attr with
  | .extract lowBit => some lowBit
  | .none | .constant _ => none

/-- The pattern of a constant, as long as its magnitude fits its type. -/
def constant? (operation : Operation) : Option Bits :=
  match operation.kind, operation.attr with
  | .constant, .constant magnitude => (Bits.ofMagnitude operation.type.width magnitude).toOption
  | _, _ => none

/-- Whether the operation is a constant. -/
def isConstant (operation : Operation) : Bool :=
  operation.kind == .constant

/-- The operations whose results are read, one entry for each reading operand. -/
def producers (operation : Operation) : List Nat :=
  operation.operands.filterMap Value.producer?

/-- The results among the operands are those of the producers. -/
theorem mem_producers_iff (operation : Operation) (id : Nat) :
    id ∈ operation.producers ↔ Value.result id ∈ operation.operands := by
  unfold producers
  rw [List.mem_filterMap]
  constructor
  · rintro ⟨value, member, produced⟩
    cases value with
    | input index => cases produced
    | result other =>
      cases produced
      exact member
  · intro member
    exact ⟨_, member, rfl⟩

/-- The written form of an operation. -/
def render (operation : Operation) : String :=
  let carried := match operation.attr with
    | .none => ""
    | .constant magnitude => " " ++ Numeral.write 10 magnitude
    | .extract lowBit => " from " ++ Numeral.write 10 lowBit
  operation.kind.name ++ renderOperands (operation.operands.map Value.render) ++ carried ++ " : "
    ++ operation.type.render

instance : ToString Operation where
  toString := render

end Operation

/-- What is known about values. -/
structure Scope where
  /-- The type of a value that exists. -/
  typeOf : Value → Option BitType
  /-- The operation that produces a value, if one does. -/
  definition : Value → Option Operation

/-- The pattern of a value that a constant produces. -/
def Scope.constant? (scope : Scope) (value : Value) : Option Bits :=
  (scope.definition value).bind Operation.constant?

end BitGraph
