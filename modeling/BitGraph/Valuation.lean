/-
This file says what proposals denote, apart from any graph. A valuation gives a
pattern to every value; it respects a scope if the patterns are those that the
scope knows of: they have the types of the values, constants are the constants,
and slices are slices. Under a valuation an operand, a shape and a proposal
denote patterns too.
-/

import BitGraph.Evaluation
import BitGraph.Replacement
import BitGraph.Typing

namespace BitGraph

/-- A pattern for every value. -/
abbrev Valuation : Type :=
  Value → Bits

/-- A valuation gives values the patterns that a scope knows of. -/
structure Valuation.Respects (valuation : Valuation) (scope : Scope) : Prop where
  width : ∀ value type, scope.typeOf value = some type → (valuation value).width = type.width
  constant : ∀ value bits, scope.constant? value = some bits → valuation value = bits
  slice : ∀ value operation, scope.definition value = some operation →
    operation.kind = .extract →
      operation.evaluate (operation.operands.map valuation) = .ok (valuation value)

namespace Scope

/-- The types of values are the result types of the operations that produce them. -/
def Typed (scope : Scope) : Prop :=
  ∀ value operation, scope.definition value = some operation →
    scope.typeOf value = some operation.type

/-- The operations of a scope are well formed in it. -/
def Verified (scope : Scope) (strictness : Strictness) : Prop :=
  ∀ value operation, scope.definition value = some operation →
    operation.verify scope strictness = .ok ()

end Scope

/-- The type of an operand. -/
def Operand.type? (scope : Scope) : Operand → Option BitType
  | .existing value => scope.typeOf value
  | .pending bits => some (.ofBits bits)

/-- The pattern of an operand. -/
def Operand.denote (valuation : Valuation) : Operand → Bits
  | .existing value => valuation value
  | .pending bits => bits

/-- The pattern that a shape computes from the patterns of its operands. -/
def Shape.denote (shape : Shape) (valuation : Valuation) : Except GraphError Bits :=
  let operation : Operation := ⟨shape.kind, [], shape.attr, shape.type⟩
  operation.evaluate (shape.operands.map (Operand.denote valuation))

namespace Replacement

/-- The pattern of a proposal. -/
def denote (valuation : Valuation) : Replacement → Except GraphError Bits
  | .existing value => .ok (valuation value)
  | .constant bits => .ok bits
  | .fresh shape => shape.denote valuation

/-- The type of a proposal. -/
def type? (scope : Scope) : Replacement → Option BitType
  | .existing value => scope.typeOf value
  | .constant bits => some (.ofBits bits)
  | .fresh shape => some shape.type

/-- The values that a proposal mentions. -/
def values : Replacement → List Value
  | .existing value => [value]
  | .constant _ => []
  | .fresh shape => shape.operands.filterMap fun
    | .existing value => some value
    | .pending _ => none

end Replacement

/-- What an operation computes depends on its kind, attribute and type alone: its own operands
only say where the arguments come from. -/
theorem Operation.evaluate_eq_of_parts {first second : Operation} (kind : first.kind = second.kind)
    (attr : first.attr = second.attr) (type : first.type = second.type) (arguments : List Bits) :
    first.evaluate arguments = second.evaluate arguments := by
  obtain ⟨kind', operands, attr', type'⟩ := first
  obtain ⟨kind'', operands', attr'', type''⟩ := second
  cases kind
  cases attr
  cases type
  rfl

end BitGraph
