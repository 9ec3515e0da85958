/-
This file reads the numbers, dates and times of TOML documents. Underscores may
stand between digits. An integer has at most 63 bits besides its sign; a number
with a fraction or an exponent must not exceed what a double holds; the parts
of a date or a time must lie in their ranges.
-/

import BitGraph.Numeral
import BitGraph.Toml.Basic

namespace BitGraph.Toml

/-! ### Digits -/

/-- Further digits, which underscores may separate. -/
def moreDigits (base : Nat) : List Char → List Char × List Char
  | [] => ([], [])
  | ['_'] => ([], ['_'])
  | '_' :: digit :: rest =>
    if Numeral.isDigit base digit then
      let (digits, rest) := moreDigits base rest
      (digit :: digits, rest)
    else ([], '_' :: digit :: rest)
  | digit :: rest =>
    if Numeral.isDigit base digit then
      let (digits, rest) := moreDigits base rest
      (digit :: digits, rest)
    else ([], digit :: rest)

/-- A run of digits. -/
def digits? (base : Nat) : List Char → Option (List Char × List Char)
  | digit :: rest =>
    if Numeral.isDigit base digit then
      let (digits, rest) := moreDigits base rest
      some (digit :: digits, rest)
    else none
  | [] => none

/-- A sign, if there is one; the result tells whether it is negative. -/
def sign : List Char → Bool × List Char
  | '-' :: rest => (true, rest)
  | '+' :: rest => (false, rest)
  | characters => (false, characters)

/-- The digits of a decimal number, which starts with zero only if it is zero. -/
def decimal? : List Char → Option (List Char × List Char)
  | '0' :: rest => some (['0'], rest)
  | characters => digits? 10 characters

/-! ### Integers -/

/-- The bound of integers: their magnitude lies below it, or is it if they are negative. -/
def integerBound : Nat :=
  9223372036854775808

/-- The integer of a sign and digits. -/
def signed? (negative : Bool) (base : Nat) (digits : List Char) : Option Int := do
  let magnitude ← Numeral.read? base digits
  if negative then
    if magnitude ≤ integerBound then some (-(magnitude : Int)) else none
  else
    if magnitude < integerBound then some magnitude else none

/-- An integer. A base other than ten allows no sign. -/
def integer? : List Char → Option (Int × List Char)
  | '0' :: 'x' :: rest => unsigned 16 rest
  | '0' :: 'o' :: rest => unsigned 8 rest
  | '0' :: 'b' :: rest => unsigned 2 rest
  | characters => do
    let (negative, rest) := sign characters
    let (digits, rest) ← decimal? rest
    return (← signed? negative 10 digits, rest)
where
  unsigned (base : Nat) (characters : List Char) : Option (Int × List Char) := do
    let (digits, rest) ← digits? base characters
    return (← signed? false base digits, rest)

/-! ### Numbers with a fraction or an exponent -/

/-- The digits behind a point. -/
def fraction? : List Char → Option (List Char × List Char)
  | '.' :: rest => digits? 10 rest
  | _ => none

/-- An exponent. -/
def exponent? : List Char → Option (Int × List Char)
  | 'e' :: rest => scaled rest
  | 'E' :: rest => scaled rest
  | _ => none
where
  scaled (characters : List Char) : Option (Int × List Char) := do
    let (negative, rest) := sign characters
    let (digits, rest) ← digits? 10 rest
    let magnitude ← Numeral.read? 10 digits
    return (if negative then -(magnitude : Int) else magnitude, rest)

/-- Whether a number rounds to one that a double holds, given by its digits without leading
zeros and by the power of ten of the last one. The least number that does not lies half a
step above the largest double. Numbers that are far from it are told by their length. -/
def isFinite (mantissa : Nat) (power : Int) : Bool :=
  let length : Int := (Nat.toDigits 10 mantissa).length
  let limit := 1 <<< 1024 - 1 <<< 970
  if mantissa = 0 || length + power < 300 then true
  else if 320 < length + power then false
  else if 0 ≤ power then mantissa * Nat.pow 10 power.toNat < limit
  else mantissa < limit * Nat.pow 10 (-power).toNat

/-- A number with a fraction or an exponent. Only a number that is not negative can be too
large. -/
def decimalFloat? (characters : List Char) : Option (Unit × List Char) := do
  let (negative, rest) := sign characters
  let (whole, rest) ← decimal? rest
  let (fraction, rest) := (fraction? rest).getD ([], rest)
  let (exponent, rest) := ((exponent? rest).map fun (value, rest) => (some value, rest)).getD
    (none, rest)
  if fraction.isEmpty && exponent.isNone then none
  else
    let mantissa ← Numeral.read? 10 (whole ++ fraction)
    if negative || isFinite mantissa (exponent.getD 0 - fraction.length) then some ((), rest)
    else none

/-- Infinity, or what is no number. -/
def specialFloat? (characters : List Char) : Option (Unit × List Char) :=
  match (sign characters).2 with
  | 'i' :: 'n' :: 'f' :: rest => some ((), rest)
  | 'n' :: 'a' :: 'n' :: rest => some ((), rest)
  | _ => none

/-- A number that is not written as an integer. -/
def float? (characters : List Char) : Option (Unit × List Char) :=
  (decimalFloat? characters).or (specialFloat? characters)

/-! ### Dates and times -/

/-- A number of exactly as many digits as asked for, in a range. -/
def numberOf (length least greatest : Nat) (characters : List Char) :
    Option (Nat × List Char) := do
  let digits := characters.take length
  if digits.length = length then
    let value ← Numeral.read? 10 digits
    if least ≤ value && value ≤ greatest then some (value, characters.drop length) else none
  else none

/-- The rest behind a character. -/
def behind? (expected : Char) : List Char → Option (List Char)
  | character :: rest => if character = expected then some rest else none
  | [] => none

/-- The length of a month. -/
def daysOf (year month : Nat) : Nat :=
  if month = 2 then
    if year % 4 = 0 && (year % 100 ≠ 0 || year % 400 = 0) then 29 else 28
  else if month = 4 || month = 6 || month = 9 || month = 11 then 30
  else 31

/-- The rest behind a date. -/
def date? (characters : List Char) : Option (List Char) := do
  let (year, rest) ← numberOf 4 0 9999 characters
  let (month, rest) ← numberOf 2 1 12 (← behind? '-' rest)
  let (_, rest) ← numberOf 2 1 (daysOf year month) (← behind? '-' rest)
  return rest

/-- The rest behind a time of day, which may have a leap second and a fraction of a second. -/
def time? (characters : List Char) : Option (List Char) := do
  let (_, rest) ← numberOf 2 0 23 characters
  let (_, rest) ← numberOf 2 0 59 (← behind? ':' rest)
  let (_, rest) ← numberOf 2 0 60 (← behind? ':' rest)
  match rest with
  | '.' :: rest =>
    let after := rest.dropWhile (Numeral.isDigit 10)
    if after.length < rest.length then some after else none
  | rest => some rest

/-- The rest behind the offset of a time, if there is one. -/
def skipOffset : List Char → Option (List Char)
  | 'Z' :: rest => some rest
  | 'z' :: rest => some rest
  | '+' :: rest => hours rest
  | '-' :: rest => hours rest
  | characters => some characters
where
  hours (characters : List Char) : Option (List Char) := do
    let (_, rest) ← numberOf 2 0 23 characters
    let (_, rest) ← numberOf 2 0 59 (← behind? ':' rest)
    return rest

/-- A date, a time of day, or a date with a time and perhaps an offset. -/
def dateTime? (characters : List Char) : Option (Unit × List Char) :=
  match date? characters with
  | some (separator :: rest) =>
    if separator = 'T' || separator = 't' || separator = ' ' then
      match time? rest with
      | some rest => (skipOffset rest).map fun rest => ((), rest)
      | none => some ((), separator :: rest)
    else some ((), separator :: rest)
  | some [] => some ((), [])
  | none => (time? characters).map fun rest => ((), rest)

/-! ### All of them -/

/-- A value that is neither a string nor made of other values. -/
def scalarValue? (characters : List Char) : Option (Toml × List Char) :=
  match characters with
  | 't' :: 'r' :: 'u' :: 'e' :: rest => some (.boolean true, rest)
  | 'f' :: 'a' :: 'l' :: 's' :: 'e' :: rest => some (.boolean false, rest)
  | _ =>
    ((dateTime? characters).map fun (_, rest) => (.dateTime, rest)).or
      (((float? characters).map fun (_, rest) => (.float, rest)).or
        ((integer? characters).map fun (value, rest) => (.integer value, rest)))

end BitGraph.Toml
