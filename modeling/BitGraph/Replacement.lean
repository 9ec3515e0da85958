/-
This file defines proposals: what an operation could be replaced with. A
proposal is drawn up without touching the graph, so a constant that it needs
and that no operation holds yet is carried in it as a pattern.
-/

import BitGraph.Bits.Literal
import BitGraph.Operation

namespace BitGraph

/-- An operand of an operation that is still to be built. -/
inductive Operand where
  /-- A value that exists. -/
  | existing (value : Value)
  /-- A constant that is still to be built. -/
  | pending (bits : Bits)
  deriving DecidableEq, Repr

/-- The written form of an operand. -/
def Operand.render : Operand → String
  | .existing value => value.render
  | .pending bits => bits.render

/-- An operation that is still to be built. -/
structure Shape where
  kind : Kind
  operands : List Operand
  attr : Attribute
  /-- The type of the operation to be replaced, and so of this one. -/
  type : BitType
  deriving DecidableEq, Repr

/-- What an operation could be replaced with. -/
inductive Replacement where
  /-- A value that exists. -/
  | existing (value : Value)
  /-- A constant. -/
  | constant (bits : Bits)
  /-- An operation that is still to be built. -/
  | fresh (shape : Shape)
  deriving DecidableEq, Repr

namespace Replacement

/-- The written form of a proposal. -/
def render : Replacement → String
  | .existing value => value.render
  | .constant bits => bits.render
  | .fresh shape =>
    shape.kind.name ++ renderOperands (shape.operands.map Operand.render) ++ " : "
      ++ shape.type.render

instance : ToString Replacement where
  toString := render

end Replacement

end BitGraph
