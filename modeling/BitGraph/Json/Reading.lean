/-
This file reads JSON values back from their compact text, which has no blanks
between its parts. Reading a string undoes writing it, whatever characters it
holds.
-/

import BitGraph.Json.Basic

namespace BitGraph.Json

/-- A reader takes the characters that are left and returns what it read and the rest. -/
abbrev Reader (α : Type) : Type :=
  List Char → Option (α × List Char)

/-! ### Strings -/

/-- The character that a letter stands for behind a backslash. -/
def escaped? : Char → Option Char
  | '"' => some '"'
  | '\\' => some '\\'
  | '/' => some '/'
  | 'b' => some '\x08'
  | 't' => some '\t'
  | 'n' => some '\n'
  | 'f' => some '\x0c'
  | 'r' => some '\r'
  | _ => none

/-- The character of a number in hexadecimal digits, unless the number denotes none. -/
def numbered? (digits : List Char) : Option Char :=
  (Numeral.read? 16 digits).bind fun value =>
    if value.isValidChar then some (Char.ofNat value) else none

/-- Put a character in front of the text that was read. -/
def prepend (character : Char) (reading : List Char × List Char) : List Char × List Char :=
  (character :: reading.1, reading.2)

/-- The text up to a quotation mark. -/
def stringBody : Reader (List Char)
  | [] => none
  | '"' :: rest => some ([], rest)
  | '\\' :: 'u' :: a :: b :: c :: d :: rest =>
    (numbered? [a, b, c, d]).bind fun character => (stringBody rest).map (prepend character)
  | '\\' :: letter :: rest =>
    (escaped? letter).bind fun character => (stringBody rest).map (prepend character)
  | character :: rest =>
    if character.toNat < 32 || character = '\\' then none
    else (stringBody rest).map (prepend character)

/-- A string. -/
def readString : Reader String
  | '"' :: rest => (stringBody rest).map fun (text, rest) => (String.ofList text, rest)
  | _ => none

/-! ### Numbers -/

/-- A run of digits. -/
def readNatural (characters : List Char) : Option (Nat × List Char) :=
  (Numeral.read? 10 (characters.takeWhile Char.isDigit)).map
    (·, characters.dropWhile Char.isDigit)

/-- A run of digits, perhaps with a minus sign. -/
def readInteger : Reader Int
  | '-' :: rest => (readNatural rest).map fun (value, rest) => (-(value : Int), rest)
  | characters => (readNatural characters).map fun (value, rest) => ((value : Int), rest)

/-- A number without or with a fraction. -/
def readNumber (characters : List Char) : Option (Json × List Char) := do
  match ← readInteger characters with
  | (mantissa, 'e' :: '-' :: rest) =>
    let (places, rest) ← readNatural rest
    return (.fraction mantissa places, rest)
  | (value, rest) => return (.integer value, rest)

/-! ### Values -/

/-- The items behind an opening bracket, of which there is at least one. Each round reads one. -/
def readItems (item : Reader Json) : Nat → Reader (List Json)
  | 0, _ => none
  | rounds + 1, characters => do
    match ← item characters with
    | (first, ']' :: rest) => return ([first], rest)
    | (first, ',' :: rest) =>
      let (items, rest) ← readItems item rounds rest
      return (first :: items, rest)
    | _ => none

/-- A name, a colon and a value. -/
def readMember (item : Reader Json) (characters : List Char) :
    Option ((String × Json) × List Char) := do
  match ← readString characters with
  | (name, ':' :: rest) =>
    let (value, rest) ← item rest
    return ((name, value), rest)
  | _ => none

/-- The members behind an opening brace, of which there is at least one. Each round reads one. -/
def readMembers (item : Reader Json) : Nat → Reader (List (String × Json))
  | 0, _ => none
  | rounds + 1, characters => do
    match ← readMember item characters with
    | (first, '\x7d' :: rest) => return ([first], rest)
    | (first, ',' :: rest) =>
      let (members, rest) ← readMembers item rounds rest
      return (first :: members, rest)
    | _ => none

/-- A value in which arrays and objects are nested less deep than given. -/
def readValue : Nat → Reader Json
  | 0, _ => none
  | depth + 1, characters =>
    match characters with
    | 'n' :: 'u' :: 'l' :: 'l' :: rest => some (.null, rest)
    | 't' :: 'r' :: 'u' :: 'e' :: rest => some (.bool true, rest)
    | 'f' :: 'a' :: 'l' :: 's' :: 'e' :: rest => some (.bool false, rest)
    | '[' :: ']' :: rest => some (.array [], rest)
    | '[' :: rest =>
      (readItems (readValue depth) rest.length rest).map fun (items, rest) => (.array items, rest)
    | '\x7b' :: '\x7d' :: rest => some (.object [], rest)
    | '\x7b' :: rest =>
      (readMembers (readValue depth) rest.length rest).map fun (members, rest) =>
        (.object members, rest)
    | '"' :: rest => (readString ('"' :: rest)).map fun (text, rest) => (.string text, rest)
    | characters => readNumber characters

/-- The value of a text. -/
def parse? (characters : List Char) : Option Json :=
  match readValue characters.length characters with
  | some (json, []) => some json
  | _ => none

/-! ### Reading a string undoes writing it -/

/-- The number of a character below the blank, in four digits, denotes it. -/
theorem numbered?_control : ∀ code < 32,
    numbered? ['0', '0', Nat.digitChar (code / 16), Nat.digitChar (code % 16)] =
      some (Char.ofNat code) := by
  decide

theorem stringBody_letter (letter character : Char) (rest : List Char)
    (denoted : escaped? letter = some character) :
    stringBody ('\\' :: letter :: rest) = (stringBody rest).map (prepend character) := by
  rw [stringBody]
  · rw [denoted, Option.bind_some]
  · rintro a b c d rest' same
    cases same
    simp [escaped?] at denoted

theorem stringBody_escapeControl (character : Char) (rest : List Char)
    (control : character.toNat < 32) :
    stringBody (escapeControl character ++ rest) = (stringBody rest).map (prepend character) := by
  unfold escapeControl
  split
  · rename_i same
    exact stringBody_letter 'b' character rest (same ▸ rfl)
  split
  · rename_i same
    exact stringBody_letter 't' character rest (same ▸ rfl)
  split
  · rename_i same
    exact stringBody_letter 'n' character rest (same ▸ rfl)
  split
  · rename_i same
    exact stringBody_letter 'f' character rest (same ▸ rfl)
  split
  · rename_i same
    exact stringBody_letter 'r' character rest (same ▸ rfl)
  · have denoted := numbered?_control character.toNat control
    rw [Char.ofNat_toNat] at denoted
    simp only [List.cons_append, List.nil_append, stringBody, denoted, Option.bind_some]

/-- What stands for a character in a string is read as that character. -/
theorem stringBody_escape (character : Char) (rest : List Char) :
    stringBody (escape character ++ rest) = (stringBody rest).map (prepend character) := by
  unfold escape
  split
  · rename_i same
    subst same
    exact stringBody_letter '"' '"' rest rfl
  split
  · rename_i same
    subst same
    exact stringBody_letter '\\' '\\' rest rfl
  split
  · rename_i control
    exact stringBody_escapeControl character rest control
  · rename_i noMark noSlash noControl
    rw [List.singleton_append, stringBody]
    · simp [noSlash, noControl]
    · simpa using noMark
    · intro a b c d rest' same
      exact absurd same noSlash
    · intro letter rest' same
      exact absurd same noSlash

/-- A string is read back as it was written, and what stands behind it is left. -/
theorem readString_quote (text : String) (rest : List Char) :
    readString (quote text ++ rest) = some (text, rest) := by
  have body : ∀ characters : List Char,
      stringBody (characters.flatMap escape ++ '"' :: rest) = some (characters, rest) := by
    intro characters
    induction characters with
    | nil => simp [stringBody]
    | cons character others inductionHypothesis =>
      rw [List.flatMap_cons, List.append_assoc, stringBody_escape, inductionHypothesis]
      rfl
  have whole : quote text ++ rest = '"' :: (text.toList.flatMap escape ++ '"' :: rest) := by
    simp [quote]
  rw [whole, readString, body]
  simp

end BitGraph.Json
