/-
This file reads whole TOML documents. A document is a sequence of statements, one
on a line: headers, and pairs of a key and a value. The pairs before the first
header belong to the document's own table, and the pairs behind a header to the
table of that header.
-/

import BitGraph.Toml.Scalar
import BitGraph.Toml.Table
import BitGraph.Toml.Text

namespace BitGraph.Toml

/-! ### Values -/

/-- The items of an array behind its opening bracket. Each round reads one item. -/
def arrayItems (item : List Char → Option (Toml × List Char)) :
    Nat → List Char → Option (List Toml × List Char)
  | 0, _ => none
  | rounds + 1, characters =>
    match skipAnySpace characters with
    | ']' :: rest => some ([], rest)
    | characters => do
      let (first, rest) ← item characters
      match skipAnySpace rest with
      | ',' :: rest =>
        let (items, rest) ← arrayItems item rounds rest
        return (first :: items, rest)
      | ']' :: rest => return ([first], rest)
      | _ => none

/-- A key, an equals sign and a value. -/
def pair? (value : List Char → Option (Toml × List Char)) (characters : List Char) :
    Option ((List String × Toml) × List Char) := do
  let (key, rest) ← key? characters
  let rest ← behind? '=' rest
  let (value, rest) ← value (skipBlanks rest)
  return ((key, value), rest)

/-- The pairs of a table on one line behind its first one. Each round reads one pair. -/
def inlinePairs (value : List Char → Option (Toml × List Char)) :
    Nat → List Char → Option ((List (List String × Toml)) × List Char)
  | 0, _ => none
  | rounds + 1, characters => do
    let (first, rest) ← pair? value characters
    match skipBlanks rest with
    | ',' :: rest =>
      let (pairs, rest) ← inlinePairs value rounds rest
      return (first :: pairs, rest)
    | '\x7d' :: rest => return ([first], rest)
    | _ => none

/-- A table on one line behind its opening brace. -/
def inlineTable (value : List Char → Option (Toml × List Char)) (characters : List Char) :
    Option (Toml × List Char) :=
  match skipBlanks characters with
  | '\x7d' :: rest => some (.table [], rest)
  | characters => do
    let (pairs, rest) ← inlinePairs value characters.length characters
    return (.table (finishMembers (← insertAll pairs [])), rest)

/-- A value. Arrays and tables in it are nested at most as deep as given. -/
def value? : Nat → List Char → Option (Toml × List Char)
  | _, '"' :: rest => (string? ('"' :: rest)).map fun (text, rest) => (.string text, rest)
  | _, '\'' :: rest => (string? ('\'' :: rest)).map fun (text, rest) => (.string text, rest)
  | 0, '[' :: _ => none
  | depth + 1, '[' :: rest =>
    (arrayItems (value? depth) rest.length rest).map fun (items, rest) => (.array items, rest)
  | 0, '\x7b' :: _ => none
  | depth + 1, '\x7b' :: rest => inlineTable (value? depth) rest
  | _, characters => scalarValue? characters

/-! ### Statements -/

/-- A statement. -/
inductive Statement where
  /-- The header of a table. -/
  | table (path : List String)
  /-- The header of a table in a list of tables. -/
  | tables (path : List String)
  /-- A key and its value. -/
  | pair (key : List String) (value : Toml)

/-- A statement without the end of its line. -/
def statement? : List Char → Option (Statement × List Char)
  | '[' :: '[' :: rest => do
    let (path, rest) ← key? rest
    return (.tables path, ← behind? ']' (← behind? ']' rest))
  | '[' :: rest => do
    let (path, rest) ← key? rest
    return (.table path, ← behind? ']' rest)
  | characters => do
    let ((key, value), rest) ← pair? (value? deepest) characters
    return (.pair key value, rest)

/-- The statements of a document. Each round reads one statement. -/
def statements : Nat → List Char → Option (List Statement)
  | 0, _ => none
  | rounds + 1, characters =>
    match skipAnySpace characters with
    | [] => some []
    | characters => do
      let (first, rest) ← statement? characters
      return first :: (← statements rounds (← statementEnd? rest))

/-- The pairs in front of the next header, and the rest. -/
def leadingPairs : List Statement → List (List String × Toml) × List Statement
  | .pair key value :: rest =>
    let (pairs, rest) := leadingPairs rest
    ((key, value) :: pairs, rest)
  | rest => ([], rest)

/-- Take the statements into the document's table one after the other. Each header takes the
pairs behind it along; a pair that is met here belongs to no header. -/
def assemble : List Statement → Members → Option Members
  | [], members => some members
  | .table path :: rest, members =>
    (define (leadingPairs rest).1 path members).bind (assemble rest)
  | .tables path :: rest, members =>
    (append (leadingPairs rest).1 path members).bind (assemble rest)
  | .pair _ _ :: rest, members => assemble rest members

/-- The table of a document. A byte order mark in front of it is no part of it. -/
def parse (text : String) : Option (List (String × Toml)) := do
  let characters := match text.toList with
    | '\ufeff' :: rest => rest
    | characters => characters
  let statements ← statements (characters.length + 1) characters
  let members ← insertAll (leadingPairs statements).1 []
  return finishMembers (← assemble statements members)

end BitGraph.Toml
