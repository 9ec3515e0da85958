/-
This file turns descriptions of operations into well-formed operations. A
blueprint names a kind and what it takes, in the general form or in one of the
forms that leave out what the kind determines; building it supplies the rest
and judges the outcome, so a built operation is well formed in its scope.
-/

import BitGraph.Typing

namespace BitGraph

/-- A description of an operation to build. -/
inductive Blueprint where
  /-- Everything is given, save perhaps the result type. -/
  | general (kind : Kind) (operands : List Value) (attr : Attribute) (type : Option BitType)
  /-- A constant of this pattern. -/
  | constant (bits : Bits)
  /-- Any number of operands, and the type they share. -/
  | variadic (kind : Kind) (operands : List Value)
  /-- Two operands, and the type they share. -/
  | binary (kind : Kind) (left right : Value)
  /-- One operand, reduced to a bit. -/
  | reduce (kind : Kind) (operand : Value)
  /-- A concatenation, the most significant operand first. -/
  | concat (operands : List Value)
  /-- The slice of this width from this bit upwards. -/
  | extract (operand : Value) (lowBit width : Nat)
  /-- An extension to this width. -/
  | extend (kind : Kind) (operand : Value) (width : Nat)
  deriving DecidableEq, Repr

/-- Build an operation from its parts. Without a declared type the operands decide it. -/
def Operation.build (scope : Scope) (strictness : Strictness) (kind : Kind)
    (operands : List Value) (attr : Attribute) (declared : Option BitType) :
    Except GraphError Operation := do
  let type ← match declared with
    | some type => .ok type
    | none => (scope.types operands).bind (kind.inferType strictness)
  let operation : Operation := ⟨kind, operands, attr, type⟩
  operation.verify scope strictness
  return operation

/-- The declared type of a width. -/
def declaredType (width : Nat) : Except GraphError BitType :=
  (BitType.ofWidth width).mapError .bits

/-- Build the operation that a blueprint describes. A declared width of zero is refused
before anything else is looked at. -/
def Blueprint.build (scope : Scope) (strictness : Strictness) :
    Blueprint → Except GraphError Operation
  | .general kind operands attr type => Operation.build scope strictness kind operands attr type
  | .constant bits =>
    Operation.build scope strictness .constant [] (.constant bits.magnitude) (some (.ofBits bits))
  | .variadic kind operands => Operation.build scope strictness kind operands .none none
  | .binary kind left right => Operation.build scope strictness kind [left, right] .none none
  | .reduce kind operand => Operation.build scope strictness kind [operand] .none none
  | .concat operands => Operation.build scope strictness .concat operands .none none
  | .extract operand lowBit width => do
    let type ← declaredType width
    Operation.build scope strictness .extract [operand] (.extract lowBit) (some type)
  | .extend kind operand width => do
    let type ← declaredType width
    Operation.build scope strictness kind [operand] .none (some type)

end BitGraph
