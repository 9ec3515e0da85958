/-
This file lists the kinds of operations and their names. Everything else that
distinguishes the kinds is stated in the signature and the algebra of a kind.
-/

namespace BitGraph

/-- What an operation computes. -/
inductive Kind where
  /-- A fixed pattern. -/
  | constant
  /-- A sum of any number of operands. -/
  | add
  /-- A difference. -/
  | sub
  /-- A product of any number of operands. -/
  | mul
  /-- An unsigned quotient. -/
  | div
  /-- An unsigned remainder. -/
  | mod
  /-- A bitwise conjunction of any number of operands. -/
  | and
  /-- A bitwise disjunction of any number of operands. -/
  | or
  /-- A bitwise exclusive disjunction of any number of operands. -/
  | xor
  /-- The conjunction of the bits of one operand. -/
  | andReduce
  /-- The disjunction of the bits of one operand. -/
  | orReduce
  /-- The parity of the bits of one operand. -/
  | xorReduce
  /-- A concatenation, the most significant operand first. -/
  | concat
  /-- A slice of one operand. -/
  | extract
  /-- A widening that repeats the top bit. -/
  | signExtend
  /-- A widening that fills with zeros. -/
  | zeroExtend
  deriving DecidableEq, Repr

namespace Kind

/-- Every kind, in the order of declaration. -/
def all : List Kind :=
  [.constant, .add, .sub, .mul, .div, .mod, .and, .or, .xor, .andReduce, .orReduce, .xorReduce,
    .concat, .extract, .signExtend, .zeroExtend]

theorem mem_all (kind : Kind) : kind ∈ all := by
  cases kind <;> decide

/-- The name of a kind in written operations. -/
def name : Kind → String
  | .constant => "comb.constant"
  | .add => "comb.add"
  | .sub => "comb.sub"
  | .mul => "comb.mul"
  | .div => "comb.divu"
  | .mod => "comb.modu"
  | .and => "comb.and"
  | .or => "comb.or"
  | .xor => "comb.xor"
  | .andReduce => "comb.and_reduce"
  | .orReduce => "comb.or_reduce"
  | .xorReduce => "comb.xor_reduce"
  | .concat => "comb.concat"
  | .extract => "comb.extract"
  | .signExtend => "comb.sext"
  | .zeroExtend => "comb.zext"

instance : ToString Kind where
  toString := name

end Kind

end BitGraph
