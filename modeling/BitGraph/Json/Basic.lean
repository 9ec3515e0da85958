/-
This file defines JSON values and their compact text. Members of an object keep
the order in which they are given. In a string only the quotation mark, the
backslash and the characters below the blank are escaped, so the text of a value
never holds a line break.
-/

import BitGraph.Numeral

namespace BitGraph

/-- A JSON value. -/
inductive Json where
  | null
  | bool (value : Bool)
  /-- A number without a fraction. -/
  | integer (value : Int)
  /-- A number with a fraction: a decimal mantissa and the number of its places. -/
  | fraction (mantissa : Int) (places : Nat)
  | string (text : String)
  | array (items : List Json)
  | object (members : List (String × Json))
  deriving Inhabited, Repr

namespace Json

/-- A natural number. -/
def natural (value : Nat) : Json :=
  .integer value

/-- The escaped form of a character below the blank. -/
def escapeControl (character : Char) : List Char :=
  if character = '\x08' then ['\\', 'b']
  else if character = '\t' then ['\\', 't']
  else if character = '\n' then ['\\', 'n']
  else if character = '\x0c' then ['\\', 'f']
  else if character = '\r' then ['\\', 'r']
  else
    ['\\', 'u', '0', '0', Nat.digitChar (character.toNat / 16),
      Nat.digitChar (character.toNat % 16)]

/-- A character as it stands in a string. -/
def escape (character : Char) : List Char :=
  if character = '"' then ['\\', '"']
  else if character = '\\' then ['\\', '\\']
  else if character.toNat < 32 then escapeControl character
  else [character]

/-- The text of a string. -/
def quote (text : String) : List Char :=
  '"' :: (text.toList.flatMap escape ++ ['"'])

/-- The text of an integer. -/
def integerText : Int → List Char
  | .ofNat value => Nat.toDigits 10 value
  | .negSucc value => '-' :: Nat.toDigits 10 (value + 1)

mutual

/-- The compact text of a value. -/
def text : Json → List Char
  | .null => "null".toList
  | .bool true => "true".toList
  | .bool false => "false".toList
  | .integer value => integerText value
  | .fraction mantissa places => integerText mantissa ++ 'e' :: '-' :: Nat.toDigits 10 places
  | .string value => quote value
  | .array items => '[' :: (itemsText items ++ [']'])
  | .object members => '\x7b' :: (membersText members ++ ['\x7d'])

/-- The texts of items, separated by commas. -/
def itemsText : List Json → List Char
  | [] => []
  | [item] => text item
  | item :: next :: rest => text item ++ ',' :: itemsText (next :: rest)

/-- The texts of members, separated by commas. -/
def membersText : List (String × Json) → List Char
  | [] => []
  | [(key, value)] => quote key ++ ':' :: text value
  | (key, value) :: next :: rest =>
    quote key ++ ':' :: (text value ++ ',' :: membersText (next :: rest))

end

/-- The compact text of a value. -/
def render (json : Json) : String :=
  String.ofList json.text

end Json

end BitGraph
