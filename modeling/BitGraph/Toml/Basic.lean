/-
This file defines what TOML documents are made of: the values they hold, and the
parts that carry no value, which are blanks, line ends and comments. A reader
takes the characters that are left and returns what it read and the rest.
-/

namespace BitGraph

/-- A TOML value. Numbers with a fraction and dates are told apart from other values, but what
they denote is not kept. -/
inductive Toml where
  | string (text : String)
  | integer (value : Int)
  | float
  | boolean (value : Bool)
  | dateTime
  | array (items : List Toml)
  | table (members : List (String × Toml))

namespace Toml

/-! ### Characters -/

/-- A blank within a line. -/
def isBlank (character : Char) : Bool :=
  character = ' ' || character = '\t'

/-- A character that may stand in a comment: all but the control characters, of which the tab
alone is allowed. -/
def isPrintable (character : Char) : Bool :=
  character = '\t' || (32 ≤ character.toNat && character.toNat ≠ 127)

/-- A character of a key without quotation marks. -/
def isBare (character : Char) : Bool :=
  character.isAlphanum || character = '-' || character = '_'

/-! ### What carries no value -/

/-- The rest after blanks. -/
def skipBlanks (characters : List Char) : List Char :=
  characters.dropWhile isBlank

/-- The rest after a line end, if there is one. -/
def lineEnd? : List Char → Option (List Char)
  | '\n' :: rest => some rest
  | '\r' :: '\n' :: rest => some rest
  | _ => none

/-- The rest after a comment, if there is one. The end of the line does not belong to it. -/
def skipComment : List Char → List Char
  | '#' :: rest => rest.dropWhile isPrintable
  | characters => characters

/-- The rest after the end of a statement: blanks, perhaps a comment, and then a line end or
the end of the document. -/
def statementEnd? (characters : List Char) : Option (List Char) :=
  match skipComment (skipBlanks characters) with
  | [] => some []
  | rest => lineEnd? rest

/-- The rest after blanks, line ends and comments. Each round takes at least one character, so
as many rounds as there are characters suffice. -/
def skipSpace : Nat → List Char → List Char
  | 0, characters => characters
  | rounds + 1, characters =>
    match characters with
    | '#' :: rest => skipSpace rounds (rest.dropWhile isPrintable)
    | '\n' :: rest => skipSpace rounds rest
    | '\r' :: '\n' :: rest => skipSpace rounds rest
    | character :: rest =>
      if isBlank character then skipSpace rounds rest else character :: rest
    | [] => []

/-- The rest after whatever may stand between the items of an array. -/
def skipAnySpace (characters : List Char) : List Char :=
  skipSpace characters.length characters

end Toml

end BitGraph
