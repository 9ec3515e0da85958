/-
This file defines diagnostics: what is reported about a graph or about a run,
how serious it is, and by which code it can be recognised. A code is a letter
for its category and a number of at least three digits.
-/

import BitGraph.Numeral

namespace BitGraph

/-- How serious a diagnostic is, the least serious first. -/
inductive Severity where
  /-- A record of a change that was made. -/
  | note
  /-- Something that was left alone, or that is allowed but suspicious. -/
  | warning
  /-- Something that is not well formed. -/
  | error
  deriving DecidableEq, Repr

/-- The name of a severity. -/
def Severity.name : Severity → String
  | .note => "note"
  | .warning => "warning"
  | .error => "error"

/-- What a code is about. -/
inductive Category where
  | error
  | warning
  /-- A change that was made. -/
  | change
  deriving DecidableEq, Repr

/-- The letter of a category. -/
def Category.letter : Category → String
  | .error => "E"
  | .warning => "W"
  | .change => "R"

/-- The code of a diagnostic. -/
structure Code where
  category : Category
  number : Nat
  deriving DecidableEq, Repr

/-- The written form of a code: shorter numbers are filled with zeros. -/
def Code.render (code : Code) : String :=
  let digits := Numeral.write 10 code.number
  code.category.letter ++ "".pushn '0' (3 - digits.length) ++ digits

/-- A report. -/
structure Diagnostic where
  severity : Severity
  code : Code
  message : String
  /-- The operation concerned. -/
  op : Option Nat := none
  /-- Further facts. -/
  notes : List String := []
  /-- What could be done. -/
  help : List String := []
  deriving DecidableEq, Repr

end BitGraph
