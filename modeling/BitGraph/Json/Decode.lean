/-
This file reads library values out of JSON values. A record is an object with
its fields, in which further members do not matter, or an array of all its
fields in order. A case of a choice is its name, or an object whose only member
is named like the case and holds what the case carries. Numbers must lie below
the bound of their field, and must not be written with a fraction.
-/

import BitGraph.Bits.Basic
import BitGraph.Json.Basic

namespace BitGraph

/-- Why a JSON value is not the form of a value of some type. -/
inductive DecodeError where
  /-- It does not have the shape of one. -/
  | malformed
  /-- It has the shape, but the checked constructor refuses the parts. -/
  | refused (reason : BitsError)
  deriving DecidableEq, Repr

/-- A value read out of JSON, or why there is none. -/
abbrev Decoded (α : Type) : Type :=
  Except DecodeError α

namespace Json

/-- A natural number below a bound. -/
def decodeBelow (bound : Nat) : Json → Decoded Nat
  | .integer (.ofNat value) => if value < bound then .ok value else .error .malformed
  | _ => .error .malformed

/-- A natural number of at most 32 bits. -/
def decodeWord (json : Json) : Decoded Nat :=
  json.decodeBelow Numeral.wordBound

/-- A string. -/
def decodeString : Json → Decoded String
  | .string text => .ok text
  | _ => .error .malformed

/-- A list of values of one type. -/
def decodeList {α : Type} (decode : Json → Decoded α) : Json → Decoded (List α)
  | .array items => items.mapM decode
  | _ => .error .malformed

/-- A value that may be absent, which is written as null. -/
def decodeOptional {α : Type} (decode : Json → Decoded α) : Json → Decoded (Option α)
  | .null => .ok none
  | json => (decode json).map some

/-- A natural number of any size, given by its digits to the base of 2 to the 32, the least
significant first. High zero digits are allowed. -/
def decodeMagnitude (json : Json) : Decoded Nat :=
  (json.decodeList decodeWord).map (·.foldr (fun digit high => digit + Numeral.wordBound * high) 0)

/-- The fields of a record in the order of their names. A field that an object does not hold is
absent; an array holds all of them. -/
def fields (names : List String) : Json → Decoded (List (Option Json))
  | .object members => .ok (names.map fun name => members.lookup name)
  | .array items => if items.length = names.length then .ok (items.map some) else .error .malformed
  | _ => .error .malformed

/-- A field that must be present. -/
def required {α : Type} (decode : Json → Decoded α) : Option Json → Decoded α
  | some json => decode json
  | none => .error .malformed

/-- A field that may be absent. -/
def optional {α : Type} (decode : Json → Decoded α) : Option Json → Decoded (Option α)
  | some json => json.decodeOptional decode
  | none => .ok none

/-- The name of a case and what it carries. -/
def choice : Json → Decoded (String × Option Json)
  | .string name => .ok (name, none)
  | .object [(name, carried)] => .ok (name, some carried)
  | _ => .error .malformed

/-- What a case carries that carries nothing. -/
def carriesNothing : Option Json → Bool
  | none => true
  | some .null => true
  | some _ => false

/-- A case of a choice whose cases carry nothing, found by its name. -/
def decodeNamed {α : Type} (cases : List α) (name : α → String) (json : Json) : Decoded α :=
  match json.choice with
  | .ok (found, carried) =>
    match cases.find? (name · = found) with
    | some one => if carriesNothing carried then .ok one else .error .malformed
    | none => .error .malformed
  | .error reason => .error reason

end Json

/-- The digits of a natural number to the base of 2 to the 32, the least significant first and
without high zero digits. -/
def wordDigits (value : Nat) : List Nat :=
  if zero : value = 0 then []
  else
    have : value / Numeral.wordBound < value :=
      Nat.div_lt_self (Nat.pos_of_ne_zero zero) (by decide)
    value % Numeral.wordBound :: wordDigits (value / Numeral.wordBound)

/-- A natural number as its digits. -/
def Json.magnitude (value : Nat) : Json :=
  .array ((wordDigits value).map .natural)

end BitGraph
