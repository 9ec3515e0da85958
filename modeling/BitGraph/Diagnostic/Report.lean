/-
This file writes diagnostics for reading: a headline, the operation concerned,
and the notes and the help on lines of their own. The severity and the code can
be set in a colour.
-/

import BitGraph.Diagnostic.Basic

namespace BitGraph

/-- The colour of a severity on a terminal. -/
def Severity.colour : Severity → String
  | .error => "31"
  | .warning => "33"
  | .note => "36"

namespace Diagnostic

/-- The severity and the code. -/
def headline (diagnostic : Diagnostic) (coloured : Bool) : String :=
  let head := diagnostic.severity.name ++ "[" ++ diagnostic.code.render ++ "]"
  if coloured then
    "\x1b[1;" ++ diagnostic.severity.colour ++ "m" ++ head ++ "\x1b[0m"
  else
    head

/-- The written form of a diagnostic. -/
def render (diagnostic : Diagnostic) (coloured : Bool) : String :=
  let place := match diagnostic.op with
    | some id => "  --> %" ++ Numeral.write 10 id ++ "\n"
    | none => ""
  let notes := diagnostic.notes.map fun note => "   = note: " ++ note ++ "\n"
  let help := diagnostic.help.map fun advice => "   = help: " ++ advice ++ "\n"
  diagnostic.headline coloured ++ ": " ++ diagnostic.message ++ "\n" ++ place
    ++ String.join notes ++ String.join help

/-- The written form of several diagnostics, one behind the other. -/
def renderAll (diagnostics : List Diagnostic) (coloured : Bool) : String :=
  String.join (diagnostics.map (·.render coloured))

end Diagnostic

end BitGraph
