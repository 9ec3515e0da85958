/-
This file defines the canonical operand order of sums, products and bitwise
operations: the operands that are not constant, sorted, without repetitions
where repeating one changes nothing, and behind them at most one constant.
Expressions that are equal up to the order of their operands then share one
spelling, which is what merging equal operations relies on.
-/

import BitGraph.Kind.Algebra
import BitGraph.Replacement

namespace BitGraph

/-- Each run of equal values once. -/
def dropRepeats : List Value → List Value
  | first :: second :: rest =>
    if first = second then dropRepeats (second :: rest) else first :: dropRepeats (second :: rest)
  | short => short

/-- Sorted values, each once if repetitions do not matter. -/
def canonicalValues (algebra : Algebra) (values : List Value) : List Value :=
  let sorted := values.mergeSort Value.le
  if algebra.idempotent then dropRepeats sorted else sorted

/-- The constants of an operand list as they stand at its end: one constant stays the value
it is, and several are merged. There is no such end if they cannot be combined. -/
def canonicalTail (algebra : Algebra) (scope : Scope) (constants : List Value) :
    Option (List Operand) :=
  match constants with
  | [] => some []
  | [single] => some [.existing single]
  | several =>
    match algebra.combineAll (several.filterMap scope.constant?) with
    | .ok (some merged) => some [.pending merged]
    | .ok none | .error _ => none

/-- The canonical form of an operand list. -/
def canonicalOperands (algebra : Algebra) (scope : Scope) (operands : List Value) :
    Option (List Operand) :=
  let isConstant := fun value => (scope.constant? value).isSome
  let values := canonicalValues algebra (operands.filter fun value => !isConstant value)
  (canonicalTail algebra scope (operands.filter isConstant)).map (values.map Operand.existing ++ ·)

/-- Propose the canonical form of an operation that is not in it already. Operations that
have no algebra, or whose operands may not change places, have no canonical form. -/
def Operation.canonicalize (operation : Operation) (scope : Scope) : Option Replacement :=
  match operation.kind.algebra? with
  | none => none
  | some algebra =>
    if !algebra.commutative then none
    else
      match canonicalOperands algebra scope operation.operands with
      | none => none
      | some canonical =>
        if canonical = operation.operands.map .existing then none
        else
          match canonical with
          | [.existing value] => some (.existing value)
          | [.pending bits] => some (.constant bits)
          | operands => some (.fresh ⟨operation.kind, operands, .none, operation.type⟩)

end BitGraph
