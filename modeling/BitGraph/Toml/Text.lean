/-
This file reads the texts of TOML documents: strings in their four spellings,
and keys. Between quotation marks a backslash starts an escape; between
apostrophes it stands for itself. Threefold marks enclose texts of several
lines, and up to two marks may stand directly before the closing ones.
-/

import BitGraph.Numeral
import BitGraph.Toml.Basic

namespace BitGraph.Toml

/-! ### Escapes -/

/-- The character that a letter stands for behind a backslash. -/
def escaped? : Char → Option Char
  | 'b' => some '\x08'
  | 't' => some '\t'
  | 'n' => some '\n'
  | 'f' => some '\x0c'
  | 'r' => some '\r'
  | '"' => some '"'
  | '\\' => some '\\'
  | _ => none

/-- The character of a number written in hexadecimal digits, unless the number denotes none. -/
def scalar? (digits : List Char) : Option Char :=
  (Numeral.read? 16 digits).bind fun value =>
    if value.isValidChar then some (Char.ofNat value) else none

/-- Put a character in front of what was read. -/
def before (character : Option Char) (reading : Option (List Char × List Char)) :
    Option (List Char × List Char) :=
  match character, reading with
  | some character, some (text, rest) => some (character :: text, rest)
  | _, _ => none

/-! ### Texts on one line -/

/-- The text up to a quotation mark. -/
def basicText : List Char → Option (List Char × List Char)
  | [] => none
  | '"' :: rest => some ([], rest)
  | '\\' :: 'u' :: a :: b :: c :: d :: rest => before (scalar? [a, b, c, d]) (basicText rest)
  | '\\' :: 'U' :: a :: b :: c :: d :: e :: f :: g :: h :: rest =>
    before (scalar? [a, b, c, d, e, f, g, h]) (basicText rest)
  | '\\' :: letter :: rest => before (escaped? letter) (basicText rest)
  | character :: rest =>
    if isPrintable character && character ≠ '\\' then before (some character) (basicText rest)
    else none

/-- The text up to an apostrophe. -/
def literalText : List Char → Option (List Char × List Char)
  | [] => none
  | '\'' :: rest => some ([], rest)
  | character :: rest =>
    if isPrintable character then before (some character) (literalText rest) else none

/-! ### Texts of several lines -/

/-- The marks that may stand directly before the closing ones. -/
def closingMarks (mark : Char) : List Char → List Char × List Char
  | first :: second :: rest =>
    if first = mark then
      if second = mark then ([mark, mark], rest) else ([mark], second :: rest)
    else ([], first :: second :: rest)
  | [first] => if first = mark then ([mark], []) else ([], [first])
  | [] => ([], [])

/-- Whether only blanks stand before the end of the line. -/
def endsLine (characters : List Char) : Bool :=
  (lineEnd? (skipBlanks characters)).isSome

/-- The text up to three quotation marks. A backslash at the end of a line takes the line end
and all space behind it out of the text; `skipping` tells that such space is being passed
over. -/
def basicLines : Bool → List Char → Option (List Char × List Char)
  | _, [] => none
  | _, '"' :: '"' :: '"' :: rest => some (closingMarks '"' rest)
  | skipping, '\r' :: '\n' :: rest =>
    if skipping then basicLines true rest else before (some '\n') (basicLines false rest)
  | skipping, '\n' :: rest =>
    if skipping then basicLines true rest else before (some '\n') (basicLines false rest)
  | _, '\\' :: 'u' :: a :: b :: c :: d :: rest =>
    before (scalar? [a, b, c, d]) (basicLines false rest)
  | _, '\\' :: 'U' :: a :: b :: c :: d :: e :: f :: g :: h :: rest =>
    before (scalar? [a, b, c, d, e, f, g, h]) (basicLines false rest)
  | _, '\\' :: letter :: rest =>
    if endsLine (letter :: rest) then basicLines true (letter :: rest)
    else before (escaped? letter) (basicLines false rest)
  | skipping, character :: rest =>
    if skipping && isBlank character then basicLines true rest
    else if isPrintable character && character ≠ '\\' then
      before (some character) (basicLines false rest)
    else none

/-- The text up to three apostrophes. -/
def literalLines : List Char → Option (List Char × List Char)
  | [] => none
  | '\'' :: '\'' :: '\'' :: rest => some (closingMarks '\'' rest)
  | '\r' :: '\n' :: rest => before (some '\n') (literalLines rest)
  | character :: rest =>
    if isPrintable character || character = '\n' then before (some character) (literalLines rest)
    else none

/-- A line end directly behind the opening marks does not belong to the text. -/
def dropFirstLineEnd (characters : List Char) : List Char :=
  (lineEnd? characters).getD characters

/-- A string in any of its spellings. -/
def string? : List Char → Option (String × List Char)
  | '"' :: '"' :: '"' :: rest => (basicLines false (dropFirstLineEnd rest)).map asString
  | '"' :: rest => (basicText rest).map asString
  | '\'' :: '\'' :: '\'' :: rest => (literalLines (dropFirstLineEnd rest)).map asString
  | '\'' :: rest => (literalText rest).map asString
  | _ => none
where
  asString : List Char × List Char → String × List Char
    | (text, rest) => (String.ofList text, rest)

/-! ### Keys -/

/-- One part of a key: a run of bare characters, or a string on one line. -/
def keyPart? : List Char → Option (String × List Char)
  | '"' :: rest => (basicText rest).map fun (text, rest) => (String.ofList text, rest)
  | '\'' :: rest => (literalText rest).map fun (text, rest) => (String.ofList text, rest)
  | characters =>
    match characters.takeWhile isBare with
    | [] => none
    | bare => some (String.ofList bare, characters.dropWhile isBare)

/-- The parts of a key, separated by points. Each round reads one part. -/
def keyParts : Nat → List Char → Option (List String × List Char)
  | 0, _ => none
  | rounds + 1, characters => do
    let (part, rest) ← keyPart? (skipBlanks characters)
    match skipBlanks rest with
    | '.' :: rest =>
      let (parts, rest) ← keyParts rounds rest
      return (part :: parts, rest)
    | rest => return ([part], rest)

/-- How many parts a key may have, and how deep values may be nested. -/
def deepest : Nat :=
  79

/-- A key. -/
def key? (characters : List Char) : Option (List String × List Char) :=
  keyParts deepest characters

end BitGraph.Toml
