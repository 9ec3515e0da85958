/-
This file assigns codes to what is reported about graphs: one for each cause
that makes an operation ill formed, one for divisions by a constant zero, and
one for each kind of change.
-/

import BitGraph.Diagnostic.Basic
import BitGraph.Error

namespace BitGraph

/-- The code of an error. -/
def GraphError.code : GraphError → Code
  | .constantTooWide _ _ => ⟨.error, 101⟩
  | .arity _ _ _ => ⟨.error, 102⟩
  | .extractOutOfRange _ _ _ => ⟨.error, 103⟩
  | .extensionNotWider _ _ _ => ⟨.error, 104⟩
  | .widthMismatch _ _ _ => ⟨.error, 105⟩
  | .wrongAttribute _ => ⟨.error, 106⟩
  | .unknownValue _ => ⟨.error, 107⟩
  | .missingResultType _ | .resultTooWide _ | .replacementType _ _ | .inUse _ | .cyclic _
  | .bits _ => ⟨.error, 108⟩

namespace Code

/-- A division by a constant zero was left alone. -/
def divisionByZero : Code := ⟨.warning, 101⟩

/-- An operation was replaced by a simpler one. -/
def folded : Code := ⟨.change, 1⟩

/-- Operands were brought into canonical order. -/
def canonicalized : Code := ⟨.change, 2⟩

/-- An operation was merged into an equal one. -/
def merged : Code := ⟨.change, 3⟩

/-- An operation that no output needs was erased. -/
def erased : Code := ⟨.change, 4⟩

end Code

end BitGraph
