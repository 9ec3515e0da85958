/-
This file states the algebra of the kinds that take any number of operands:
their binary operation, the pattern that changes nothing, the pattern that
decides the result, and the laws the operation obeys. Folding and
canonicalization read this table, so neither knows an identity element by kind.
-/

import BitGraph.Bits.Arithmetic
import BitGraph.Kind.Basic

namespace BitGraph

/-- A distinguished pattern that exists at every width. -/
inductive Element where
  | zero
  | one
  | allOnes
  deriving DecidableEq, Repr

namespace Element

/-- The name of an element. -/
def name : Element → String
  | .zero => "Zero"
  | .one => "One"
  | .allOnes => "AllOnes"

/-- The element at a width. -/
def value : Element → Nat → Except BitsError Bits
  | .zero, width => Bits.zero width
  | .one, width => Bits.one width
  | .allOnes, width => Bits.ones width

/-- Whether a pattern is the element at its own width. -/
def holds : Element → Bits → Bool
  | .zero, bits => bits.isZero
  | .one, bits => bits.isOne
  | .allOnes, bits => bits.isAllOnes

end Element

/-- The laws of a binary operation on patterns of one width. -/
structure Algebra where
  /-- The element that changes nothing. -/
  identity : Element
  /-- The element that decides the result, where there is one. -/
  absorbing : Option Element
  associative : Bool
  commutative : Bool
  /-- Combining a pattern with itself gives that pattern. -/
  idempotent : Bool
  /-- The operation. -/
  combine : Bits → Bits → Except BitsError Bits

namespace Algebra

/-- Combine a list of patterns from the left; an empty list has no result. -/
def combineAll (algebra : Algebra) : List Bits → Except BitsError (Option Bits)
  | [] => .ok none
  | first :: rest => (rest.foldlM algebra.combine first).map some

/-- Whether a pattern decides the result on its own. -/
def absorbs (algebra : Algebra) (bits : Bits) : Bool :=
  algebra.absorbing.any (·.holds bits)

/-- Sums. -/
def add : Algebra :=
  ⟨.zero, none, true, true, false, Bits.add⟩

/-- Products. -/
def mul : Algebra :=
  ⟨.one, some .zero, true, true, false, Bits.mul⟩

/-- Bitwise conjunctions. -/
def and : Algebra :=
  ⟨.allOnes, some .zero, true, true, true, Bits.and⟩

/-- Bitwise disjunctions. -/
def or : Algebra :=
  ⟨.zero, some .allOnes, true, true, true, Bits.or⟩

/-- Bitwise exclusive disjunctions. -/
def xor : Algebra :=
  ⟨.zero, none, true, true, false, Bits.xor⟩

end Algebra

/-- The algebra of the kinds that take any number of operands of one type. -/
def Kind.algebra? : Kind → Option Algebra
  | .add => some .add
  | .mul => some .mul
  | .and => some .and
  | .or => some .or
  | .xor => some .xor
  | .constant | .sub | .div | .mod | .andReduce | .orReduce | .xorReduce | .concat | .extract
  | .signExtend | .zeroExtend => none

end BitGraph
