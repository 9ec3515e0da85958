/-
This file defines tables of names. Each distinct name has one number, given out
in the order in which the names first appear; asking for a name that is already
in the table changes nothing.
-/

import BitGraph.Arena

namespace BitGraph

/-- A table of distinct names. -/
structure Names where
  entries : Arena String := {}
  deriving DecidableEq, Repr

namespace Names

/-- How many distinct names there are. -/
def size (names : Names) : Nat :=
  names.entries.size

/-- The number of a name that is in the table. -/
def find? (names : Names) (name : String) : Option Nat :=
  names.entries.toList.idxOf? name

/-- The name of a number. -/
def get? (names : Names) (id : Nat) : Option String :=
  names.entries.get? id

/-- The number of a name and the table that holds it. -/
def intern (names : Names) (name : String) : Nat × Names :=
  match names.find? name with
  | some id => (id, names)
  | none => (names.size, ⟨names.entries.push name⟩)

end Names

end BitGraph
