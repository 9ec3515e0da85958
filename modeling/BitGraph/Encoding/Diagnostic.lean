/-
This file states the JSON forms of diagnostics and of their parts, and the form
in which a list of diagnostics is written and read back: one line for each.
-/

import BitGraph.Diagnostic.Basic
import BitGraph.Json.Decode
import BitGraph.Json.Reading

namespace BitGraph

namespace Severity

/-- All severities, the least serious first. -/
def all : List Severity :=
  [.note, .warning, .error]

/-- The name of a severity in its form. -/
def tag : Severity → String
  | .note => "Note"
  | .warning => "Warning"
  | .error => "Error"

/-- The form of a severity. -/
def encode (severity : Severity) : Json :=
  .string severity.tag

/-- The severity of a form. -/
def decode (json : Json) : Decoded Severity :=
  json.decodeNamed all tag

end Severity

namespace Category

/-- All categories. -/
def all : List Category :=
  [.error, .warning, .change]

/-- The name of a category in its form. -/
def tag : Category → String
  | .error => "Error"
  | .warning => "Warning"
  | .change => "Rewrite"

/-- The form of a category. -/
def encode (category : Category) : Json :=
  .string category.tag

/-- The category of a form. -/
def decode (json : Json) : Decoded Category :=
  json.decodeNamed all tag

end Category

namespace Code

/-- The form of a code. -/
def encode (code : Code) : Json :=
  .object [("category", code.category.encode), ("number", .natural code.number)]

/-- The code of a form. Numbers of codes have at most 16 bits. -/
def decode (json : Json) : Decoded Code := do
  match ← json.fields ["category", "number"] with
  | [category, number] =>
    let category ← Json.required Category.decode category
    let number ← Json.required (Json.decodeBelow 65536) number
    return ⟨category, number⟩
  | _ => .error .malformed

end Code

namespace Diagnostic

/-- The form of a diagnostic. -/
def encode (diagnostic : Diagnostic) : Json :=
  .object [
    ("severity", diagnostic.severity.encode),
    ("code", diagnostic.code.encode),
    ("message", .string diagnostic.message),
    ("op", (diagnostic.op.map Json.natural).getD .null),
    ("notes", .array (diagnostic.notes.map .string)),
    ("help", .array (diagnostic.help.map .string))]

/-- The diagnostic of a form. The operation may be absent. -/
def decode (json : Json) : Decoded Diagnostic := do
  match ← json.fields ["severity", "code", "message", "op", "notes", "help"] with
  | [severity, code, message, op, notes, help] =>
    let severity ← Json.required Severity.decode severity
    let code ← Json.required Code.decode code
    let message ← Json.required Json.decodeString message
    let op ← Json.optional Json.decodeWord op
    let notes ← Json.required (Json.decodeList Json.decodeString) notes
    let help ← Json.required (Json.decodeList Json.decodeString) help
    return ⟨severity, code, message, op, notes, help⟩
  | _ => .error .malformed

/-- The line of a diagnostic. -/
def line (diagnostic : Diagnostic) : String :=
  diagnostic.encode.render ++ "\n"

/-- The lines of several diagnostics. -/
def lines (diagnostics : List Diagnostic) : String :=
  String.join (diagnostics.map line)

/-- The diagnostic of a line without its end. -/
def ofLine? (line : List Char) : Option Diagnostic :=
  (Json.parse? line).bind fun json => (decode json).toOption

/-- The lines of a text without their ends. -/
def splitLines : List Char → List (List Char)
  | [] => []
  | '\n' :: rest => [] :: splitLines rest
  | character :: rest =>
    match splitLines rest with
    | [] => [[character]]
    | line :: others => (character :: line) :: others

/-- The diagnostics of several lines. -/
def ofLines? (text : String) : Option (List Diagnostic) :=
  (splitLines text.toList).mapM ofLine?

end Diagnostic

end BitGraph
