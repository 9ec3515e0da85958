/-
This file states the shape of each kind of operation: how many operands it
takes, where its result type comes from, and which attribute it carries. The
typing rules read these tables; they know no kind by name.
-/

import BitGraph.Kind.Basic
import BitGraph.Numeral

namespace BitGraph

/-- How many operands a kind takes. -/
inductive OperandShape where
  /-- None. -/
  | nullary
  /-- One. -/
  | unary
  /-- Two. -/
  | binary
  /-- As many as the strictness in force asks for, or more. -/
  | variadic
  /-- One or more. -/
  | atLeastOne
  deriving DecidableEq, Repr

/-- Where the type of a result comes from. -/
inductive ResultRule where
  /-- It is declared, and bounds the constant from above. -/
  | declared
  /-- It is the type of every operand. -/
  | sameAsOperands
  /-- It is a single bit. -/
  | singleBit
  /-- It is as wide as all operands together. -/
  | sumOfOperands
  /-- It is declared, and the slice must lie inside the operand. -/
  | declaredNarrowerOrEqual
  /-- It is declared, and wider than the operand. -/
  | declaredWider
  deriving DecidableEq, Repr

/-- Whether the rule needs a declared type. -/
def ResultRule.isDeclared : ResultRule → Bool
  | .declared | .declaredNarrowerOrEqual | .declaredWider => true
  | .sameAsOperands | .singleBit | .sumOfOperands => false

/-- Which attribute a kind carries. -/
inductive AttributeShape where
  /-- No attribute. -/
  | none
  /-- The magnitude of a constant. -/
  | constant
  /-- The lowest bit of a slice. -/
  | extract
  deriving DecidableEq, Repr

/-- The shape of a kind. -/
structure Signature where
  operands : OperandShape
  result : ResultRule
  attr : AttributeShape
  deriving DecidableEq, Repr

/-- How strictly operations are judged. -/
structure Strictness where
  /-- The fewest operands of a sum, a product or a bitwise operation. -/
  minArity : Nat := 2
  deriving DecidableEq, Repr

/-- How many operands are accepted. -/
inductive Arity where
  | exactly (count : Nat)
  | atLeast (count : Nat)
  deriving DecidableEq, Repr

namespace Arity

/-- Whether a number of operands is accepted. -/
def accepts : Arity → Nat → Bool
  | .exactly count, found => found == count
  | .atLeast count, found => decide (count ≤ found)

/-- The written form of an arity. -/
def render : Arity → String
  | .exactly count => "exactly " ++ Numeral.write 10 count
  | .atLeast count => "at least " ++ Numeral.write 10 count

instance : ToString Arity where
  toString := render

end Arity

/-- The operand counts that a signature accepts. -/
def Signature.arity (signature : Signature) (strictness : Strictness) : Arity :=
  match signature.operands with
  | .nullary => .exactly 0
  | .unary => .exactly 1
  | .binary => .exactly 2
  | .variadic => .atLeast strictness.minArity
  | .atLeastOne => .atLeast 1

/-- The shape of each kind. -/
def Kind.signature : Kind → Signature
  | .constant => ⟨.nullary, .declared, .constant⟩
  | .add | .mul | .and | .or | .xor => ⟨.variadic, .sameAsOperands, .none⟩
  | .sub | .div | .mod => ⟨.binary, .sameAsOperands, .none⟩
  | .andReduce | .orReduce | .xorReduce => ⟨.unary, .singleBit, .none⟩
  | .concat => ⟨.atLeastOne, .sumOfOperands, .none⟩
  | .extract => ⟨.unary, .declaredNarrowerOrEqual, .extract⟩
  | .signExtend | .zeroExtend => ⟨.unary, .declaredWider, .none⟩

/-- The operand counts that a kind accepts. -/
def Kind.arity (kind : Kind) (strictness : Strictness) : Arity :=
  kind.signature.arity strictness

end BitGraph
