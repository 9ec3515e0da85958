/-
This file proposes simpler replacements for single operations. A proposal uses
only what the scope knows: the constants among the operands, the types of the
operands, and, for a slice of a slice, the inner operation. Nothing is edited.
An operation on constants whose evaluation fails is left as it is, and the
outcome says why.
-/

import BitGraph.Evaluation
import BitGraph.Replacement

namespace BitGraph

/-- How far folding goes. -/
structure FoldOptions where
  /-- Also simplify sums, products and bitwise operations of which only some operands are
  constant. -/
  mixed : Bool := true
  deriving DecidableEq, Repr

/-- What folding found. -/
inductive FoldOutcome where
  /-- The operation can be replaced. -/
  | folded (replacement : Replacement)
  /-- No rule applies. -/
  | unchanged
  /-- A rule applies but the evaluation fails, so the operation must stay. -/
  | declined (reason : GraphError)
  deriving DecidableEq, Repr

namespace FoldOutcome

/-- The proposal, where there is one. -/
def replacement? : FoldOutcome → Option Replacement
  | .folded replacement => some replacement
  | .unchanged | .declined _ => none

/-- The outcome of an evaluation. -/
def ofEvaluation : Except GraphError Bits → FoldOutcome
  | .ok bits => .folded (.constant bits)
  | .error reason => .declined reason

end FoldOutcome

/-- The patterns of values that are all constants. -/
def Scope.constants? (scope : Scope) (values : List Value) : Option (List Bits) :=
  values.mapM scope.constant?

/-- The pattern of a type without a bit set. -/
def BitType.zero (type : BitType) : Bits :=
  ⟨type.width, type.positive, BitVec.zero type.width⟩

namespace Operation

/-- The same kind over fewer operands, with at most one constant behind them. -/
def rebuilt (operation : Operation) (rest : List Value) (constant : Option Bits) : Shape :=
  let pending := (constant.map Operand.pending).toList
  ⟨operation.kind, rest.map .existing ++ pending, .none, operation.type⟩

/-- Fold a sum, a product or a bitwise operation. The constants are combined; a result that
decides or does not matter is used as such, and at least two constants are merged. -/
def foldCombined (operation : Operation) (scope : Scope) (options : FoldOptions)
    (algebra : Algebra) : FoldOutcome :=
  match operation.operands with
  | [single] => .folded (.existing single)
  | operands =>
    let known := operands.filterMap scope.constant?
    let rest := operands.filter fun value => (scope.constant? value).isNone
    match algebra.combineAll known with
    | .error reason => .declined (.bits reason)
    | .ok none => .unchanged
    | .ok (some merged) =>
      if rest.isEmpty then .folded (.constant merged)
      else if !options.mixed then .unchanged
      else if algebra.absorbs merged then .folded (.constant merged)
      else if algebra.identity.holds merged then
        match rest with
        | [only] => .folded (.existing only)
        | rest => .folded (.fresh (operation.rebuilt rest none))
      else if 2 ≤ known.length then .folded (.fresh (operation.rebuilt rest (some merged)))
      else .unchanged

/-- Evaluate an operation whose operands are all constants, and fall back otherwise. -/
def foldConstants (operation : Operation) (scope : Scope) (otherwise : FoldOutcome) :
    FoldOutcome :=
  match scope.constants? operation.operands with
  | some arguments => .ofEvaluation (operation.evaluate arguments)
  | none => otherwise

/-- Subtracting zero changes nothing, and a value less itself is zero. -/
def foldDifference (operation : Operation) (scope : Scope) : FoldOutcome :=
  match operation.operands with
  | [left, right] =>
    if (scope.constant? right).any Bits.isZero then .folded (.existing left)
    else if left = right then .folded (.constant operation.type.zero)
    else .unchanged
  | _ => .unchanged

/-- The constant that an operation divides by, where there is one. -/
def divisor? (operation : Operation) (scope : Scope) : Option Bits :=
  operation.operands[1]?.bind scope.constant?

/-- Dividing by one changes nothing. -/
def foldQuotient (operation : Operation) (scope : Scope) : FoldOutcome :=
  match operation.operands with
  | [left, _] =>
    if (operation.divisor? scope).any Bits.isOne then .folded (.existing left) else .unchanged
  | _ => .unchanged

/-- Dividing by one leaves nothing over. -/
def foldRemainder (operation : Operation) (scope : Scope) : FoldOutcome :=
  if (operation.divisor? scope).any Bits.isOne then .folded (.constant operation.type.zero)
  else .unchanged

/-- Decline to divide by a constant zero, and fall back otherwise. -/
def foldDivisor (operation : Operation) (scope : Scope) (otherwise : FoldOutcome) : FoldOutcome :=
  if (operation.divisor? scope).any Bits.isZero then .declined (.bits .divisionByZero)
  else otherwise

/-- A reduction of a single bit is that bit. -/
def foldReduction (operation : Operation) (scope : Scope) : FoldOutcome :=
  match operation.operands with
  | [operand] =>
    if scope.typeOf operand = some .bit then .folded (.existing operand) else .unchanged
  | _ => .unchanged

/-- A slice of everything is the operand, and a slice of a slice is a slice of what the inner
one slices, as long as the lowest bit can still be declared. -/
def foldSlice (operation : Operation) (scope : Scope) : FoldOutcome :=
  match operation.lowBit?, operation.operands with
  | some lowBit, [operand] =>
    if lowBit = 0 ∧ scope.typeOf operand = some operation.type then .folded (.existing operand)
    else
      match scope.definition operand with
      | some ⟨.extract, [source], .extract innerLowBit, _⟩ =>
        if innerLowBit + lowBit ≤ largestWidth then
          .folded (.fresh
            ⟨.extract, [.existing source], .extract (innerLowBit + lowBit), operation.type⟩)
        else .unchanged
      | _ => .unchanged
  | _, _ => .unchanged

/-- Propose a simpler replacement for an operation. -/
def fold (operation : Operation) (scope : Scope) (options : FoldOptions) : FoldOutcome :=
  match operation.kind with
  | .constant => .unchanged
  | .add => operation.foldCombined scope options .add
  | .mul => operation.foldCombined scope options .mul
  | .and => operation.foldCombined scope options .and
  | .or => operation.foldCombined scope options .or
  | .xor => operation.foldCombined scope options .xor
  | .sub => operation.foldConstants scope (operation.foldDifference scope)
  | .div =>
    operation.foldDivisor scope (operation.foldConstants scope (operation.foldQuotient scope))
  | .mod =>
    operation.foldDivisor scope (operation.foldConstants scope (operation.foldRemainder scope))
  | .andReduce | .orReduce | .xorReduce =>
    operation.foldConstants scope (operation.foldReduction scope)
  | .concat =>
    match operation.operands with
    | [single] => .folded (.existing single)
    | _ => operation.foldConstants scope .unchanged
  | .extract => operation.foldConstants scope (operation.foldSlice scope)
  | .signExtend | .zeroExtend => operation.foldConstants scope .unchanged

end Operation

end BitGraph
