/-
This file reads and writes unsigned numerals. A numeral is a non-empty run of
digits of its base, most significant first; letters stand for the digits from
ten upwards and are read in either case and written in lower case.
-/

namespace BitGraph.Numeral

/-- The least number that takes more than 32 bits. -/
def wordBound : Nat :=
  4294967296

/-- The value of a digit character in a base of at most thirty-six. -/
def digit? (base : Nat) (character : Char) : Option Nat :=
  let value :=
    if '0' ≤ character ∧ character ≤ '9' then some (character.toNat - '0'.toNat)
    else if 'a' ≤ character ∧ character ≤ 'z' then some (character.toNat - 'a'.toNat + 10)
    else if 'A' ≤ character ∧ character ≤ 'Z' then some (character.toNat - 'A'.toNat + 10)
    else none
  value.filter (· < base)

/-- Whether a character is a digit of the base. -/
def isDigit (base : Nat) (character : Char) : Bool :=
  (digit? base character).isSome

/-- Continue a value with further digits. -/
def accumulate (base : Nat) : Nat → List Char → Option Nat
  | value, [] => some value
  | value, character :: rest =>
    (digit? base character).bind fun digit => accumulate base (value * base + digit) rest

/-- The value of a numeral; an empty text is none. -/
def read? (base : Nat) : List Char → Option Nat
  | [] => none
  | digits => accumulate base 0 digits

/-- The numeral of a value, without leading zeros. -/
def write (base value : Nat) : String :=
  String.ofList (Nat.toDigits base value)

end BitGraph.Numeral
