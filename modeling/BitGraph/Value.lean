/-
This file defines the values of a graph. A value is either an external input or
the result of an operation, each named by a number that is given out in order
and never reused. Inputs come before results in the order of values; that
order is what canonical operand lists are sorted by.
-/

import BitGraph.Numeral

namespace BitGraph

/-- A value that an operation or an output can read. -/
inductive Value where
  /-- The external input of this number. -/
  | input (index : Nat)
  /-- The result of the operation of this number. -/
  | result (id : Nat)
  deriving DecidableEq, Repr

namespace Value

/-- The operation that produces a value. -/
def producer? : Value → Option Nat
  | .input _ => none
  | .result id => some id

/-- The external input that a value is. -/
def input? : Value → Option Nat
  | .input index => some index
  | .result _ => none

/-- Inputs before results, and smaller numbers first. -/
def le : Value → Value → Bool
  | .input first, .input second => first ≤ second
  | .input _, .result _ => true
  | .result _, .input _ => false
  | .result first, .result second => first ≤ second

/-- The written form of a value. -/
def render : Value → String
  | .input index => "%arg" ++ Numeral.write 10 index
  | .result id => "%" ++ Numeral.write 10 id

instance : ToString Value where
  toString := render

end Value

end BitGraph
