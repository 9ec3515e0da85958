/-
This file says what an operation computes from the patterns of its operands.
The argument list is taken as it comes: it need not have the length or the
widths that a well-formed operation guarantees, and the errors say what is
missing.
-/

import BitGraph.Bits.Slice
import BitGraph.Error
import BitGraph.Kind.Algebra

namespace BitGraph

namespace Kind

/-- Combine any positive number of arguments. -/
def ofAll (kind : Kind) (algebra : Algebra) (arguments : List Bits) : Except GraphError Bits :=
  match algebra.combineAll arguments with
  | .ok (some bits) => .ok bits
  | .ok none => .error (.arity kind (.atLeast 1) arguments.length)
  | .error reason => .error (.bits reason)

/-- Compute from two arguments. -/
def ofTwo (kind : Kind) (compute : Bits → Bits → Except BitsError Bits) :
    List Bits → Except GraphError Bits
  | [left, right] => (compute left right).mapError .bits
  | arguments => .error (.arity kind (.exactly 2) arguments.length)

/-- Compute from one argument. -/
def ofOne (kind : Kind) (compute : Bits → Except BitsError Bits) :
    List Bits → Except GraphError Bits
  | [argument] => (compute argument).mapError .bits
  | arguments => .error (.arity kind (.exactly 1) arguments.length)

/-- Join any positive number of arguments, the most significant first. -/
def ofJoined (kind : Kind) : List Bits → Except GraphError Bits
  | [] => .error (.arity kind (.atLeast 1) 0)
  | first :: rest => .ok (rest.foldl Bits.concat first)

end Kind

/-- The pattern that an operation computes from the patterns of its operands. -/
def Operation.evaluate (operation : Operation) (arguments : List Bits) : Except GraphError Bits :=
  let kind := operation.kind
  let width := operation.type.width
  match kind with
  | .constant =>
    match operation.constant? with
    | some bits => .ok bits
    | none => .error (.wrongAttribute kind)
  | .add => kind.ofAll .add arguments
  | .mul => kind.ofAll .mul arguments
  | .and => kind.ofAll .and arguments
  | .or => kind.ofAll .or arguments
  | .xor => kind.ofAll .xor arguments
  | .sub => kind.ofTwo Bits.sub arguments
  | .div => kind.ofTwo Bits.udiv arguments
  | .mod => kind.ofTwo Bits.urem arguments
  | .andReduce => kind.ofOne (fun bits => .ok bits.reduceAnd) arguments
  | .orReduce => kind.ofOne (fun bits => .ok bits.reduceOr) arguments
  | .xorReduce => kind.ofOne (fun bits => .ok bits.reduceXor) arguments
  | .concat => kind.ofJoined arguments
  | .extract => kind.ofOne (·.extract (operation.lowBit?.getD 0) width) arguments
  | .signExtend => kind.ofOne (·.signExtend width) arguments
  | .zeroExtend => kind.ofOne (·.zeroExtend width) arguments

end BitGraph
