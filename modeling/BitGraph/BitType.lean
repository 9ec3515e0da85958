/-
This file defines the types of values: a value is a bit pattern of a fixed
positive width, so a type is that width. Widths are natural numbers; the one
place where they are bounded is the type of a concatenation, which must not
exceed the largest width that can be declared.
-/

import BitGraph.Bits.Basic
import BitGraph.Numeral

namespace BitGraph

/-- A positive width. -/
structure BitType where
  /-- The number of bits of the values of this type. -/
  width : Nat
  positive : 0 < width
  deriving Repr

/-- The largest width a type can declare. -/
def largestWidth : Nat :=
  Numeral.wordBound - 1

namespace BitType

/-- A type is determined by its width. -/
theorem eq_of_width {left right : BitType} (same : left.width = right.width) : left = right := by
  cases left
  cases right
  cases same
  rfl

instance : DecidableEq BitType := fun left right =>
  match decEq left.width right.width with
  | isTrue same => isTrue (eq_of_width same)
  | isFalse differ => isFalse fun same => differ (congrArg width same)

/-- The type of a width; there is none of width zero. -/
def ofWidth (width : Nat) : Except BitsError BitType :=
  if positive : 0 < width then .ok ⟨width, positive⟩ else .error .zeroWidth

/-- The type of a single bit. -/
def bit : BitType :=
  ⟨1, Nat.one_pos⟩

/-- The type of a pattern. -/
def ofBits (bits : Bits) : BitType :=
  ⟨bits.width, bits.positive⟩

/-- The type that all types of a non-empty list agree on. -/
def common? : List BitType → Option BitType
  | [] => none
  | first :: rest => if rest.all (· = first) then some first else none

/-- The widths of a list of types, taken together. -/
def totalWidth : List BitType → Nat
  | [] => 0
  | type :: rest => type.width + totalWidth rest

/-- The type of a concatenation: the widths add up, unless there is nothing to concatenate
or the sum is too large to declare. -/
def concatenated? (types : List BitType) : Option BitType :=
  if positive : 0 < totalWidth types then
    if totalWidth types ≤ largestWidth then some ⟨totalWidth types, positive⟩ else none
  else
    none

/-- The written form of a type. -/
def render (type : BitType) : String :=
  "i" ++ Numeral.write 10 type.width

instance : ToString BitType where
  toString := render

end BitType

end BitGraph
