/-
This file reads bit patterns from literals and writes them. A literal is a run
of binary or hexadecimal digits in which underscores may stand anywhere; a
single plus sign in front is allowed. The width is read off the literal: one
bit for every character of a binary literal and four for every one of a
hexadecimal literal, underscores apart and the sign included. Since a sign
takes room and adds no magnitude, every well-formed literal fits its width.
-/

import BitGraph.Bits.Basic
import BitGraph.Numeral

namespace BitGraph.Bits

/-- The text of a literal without its separators. -/
def literalBody (text : String) : List Char :=
  text.toList.filter (· ≠ '_')

/-- The digits of a literal: one plus sign in front is dropped, and a second one is left to
be refused. -/
def unsigned : List Char → List Char
  | '+' :: '+' :: rest => '+' :: '+' :: rest
  | '+' :: rest => rest
  | body => body

/-- The pattern written by a literal whose digits stand for `digitWidth` bits each. -/
def ofLiteral (base digitWidth : Nat) (text : String) : Except BitsError Bits :=
  let body := literalBody text
  match Numeral.read? base (unsigned body) with
  | some magnitude => ofMagnitude (body.length * digitWidth) magnitude
  | none => .error (.malformedLiteral text)

/-- The pattern written by a binary literal. -/
def ofBinary (text : String) : Except BitsError Bits :=
  ofLiteral 2 1 text

/-- The pattern written by a hexadecimal literal. -/
def ofHexadecimal (text : String) : Except BitsError Bits :=
  ofLiteral 16 4 text

/-- The written form of a pattern: its width in decimal, and its magnitude in hexadecimal
without leading zeros. -/
def render (bits : Bits) : String :=
  Numeral.write 10 bits.width ++ "'h" ++ Numeral.write 16 bits.magnitude

instance : ToString Bits where
  toString := render

end BitGraph.Bits
