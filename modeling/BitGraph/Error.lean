/-
This file lists what can be wrong with an operation or with an edit of a graph,
and words it.
-/

import BitGraph.Kind.Signature
import BitGraph.Operation

namespace BitGraph

/-- Why an operation or an edit was refused. -/
inductive GraphError where
  /-- The magnitude of a constant needs more bits than its type has. -/
  | constantTooWide (width magnitude : Nat)
  /-- The kind does not take this many operands. -/
  | arity (kind : Kind) (expected : Arity) (found : Nat)
  /-- A slice reaches past the top bit of its operand. -/
  | extractOutOfRange (lowBit resultWidth inputWidth : Nat)
  /-- An extension does not widen. -/
  | extensionNotWider (kind : Kind) (inputWidth resultWidth : Nat)
  /-- A width is not the one the kind demands. -/
  | widthMismatch (kind : Kind) (expected found : Nat)
  /-- The attribute is not the one the kind carries. -/
  | wrongAttribute (kind : Kind)
  /-- The kind does not determine its result type. -/
  | missingResultType (kind : Kind)
  /-- The result would be wider than any type. -/
  | resultTooWide (kind : Kind)
  /-- The value does not exist, or no longer does. -/
  | unknownValue (value : Value)
  /-- A value would be replaced by one of another type. -/
  | replacementType (source target : Value)
  /-- An operation would be erased while something reads it. -/
  | inUse (id : Nat)
  /-- Operations read each other in a circle. -/
  | cyclic (id : Nat)
  /-- An operation on bit patterns was refused. -/
  | bits (reason : BitsError)
  deriving DecidableEq, Repr

namespace GraphError

/-- The wording of an error. -/
def message : GraphError → String
  | .constantTooWide width magnitude =>
    s!"constant {magnitude} does not fit in declared width {width}"
  | .arity kind expected found => s!"{kind} takes {expected} operands, found {found}"
  | .extractOutOfRange lowBit resultWidth inputWidth =>
    s!"extract of {resultWidth} bits from bit {lowBit} exceeds {inputWidth}-bit input"
  | .extensionNotWider kind inputWidth resultWidth =>
    s!"{kind} from {inputWidth} to {resultWidth} bits must widen"
  | .widthMismatch kind expected found => s!"{kind} expects width {expected}, found {found}"
  | .wrongAttribute kind => s!"{kind} built with the wrong attribute"
  | .missingResultType kind => s!"{kind} requires a declared result type"
  | .resultTooWide kind => s!"{kind} result width overflows"
  | .unknownValue value => s!"unknown value {value}"
  | .replacementType source target => s!"cannot replace {source} with {target}: types differ"
  | .inUse id => s!"operation %{id} still has uses"
  | .cyclic id => s!"cycle through operation %{id}"
  | .bits reason => reason.message

/-- Whether the cause is a divisor of zero. -/
def isDivisionByZero : GraphError → Bool
  | .bits .divisionByZero => true
  | _ => false

end GraphError

end BitGraph
