/-
This file builds tables from keys. A key of several parts leads through tables
that need not exist yet. A table that came about in this way can be extended by
further keys of its own table, but a table cannot be defined twice, and no key
can be given two values.
-/

import BitGraph.Toml.Basic

namespace BitGraph.Toml

/-- How a table came about. -/
inductive Origin where
  /-- It has a header. -/
  | header
  /-- It lies on the way to a table that has a header. -/
  | implied
  /-- It lies on the way of a key of several parts. -/
  | dotted
  deriving DecidableEq, Repr

/-- What a key of an unfinished table leads to. -/
inductive Entry where
  /-- A value, which cannot be extended. -/
  | value (value : Toml)
  /-- A table. -/
  | table (origin : Origin) (members : List (String × Entry))
  /-- A list of tables that have headers, the last one first. -/
  | tables (newest : List (String × Entry)) (older : List (List (String × Entry)))

/-- The members of an unfinished table. -/
abbrev Members : Type :=
  List (String × Entry)

/-- Put an entry under a key, in its old place if there is one. -/
def setEntry (members : Members) (key : String) (entry : Entry) : Members :=
  if members.any (·.1 = key) then
    members.map fun (other, old) => if other = key then (other, entry) else (other, old)
  else
    members ++ [(key, entry)]

/-- Give a key a value. Tables on its way are those of earlier keys of several parts, or new. -/
def insert : List String → Toml → Members → Option Members
  | [], _, _ => none
  | [key], value, members =>
    match members.lookup key with
    | none => some (setEntry members key (.value value))
    | some _ => none
  | key :: next :: rest, value, members =>
    match members.lookup key with
    | none =>
      (insert (next :: rest) value []).map fun inner => setEntry members key (.table .dotted inner)
    | some (.table .dotted inner) =>
      (insert (next :: rest) value inner).map fun inner =>
        setEntry members key (.table .dotted inner)
    | some _ => none

/-- Give several keys their values. -/
def insertAll (pairs : List (List String × Toml)) (members : Members) : Option Members :=
  pairs.foldlM (fun members (key, value) => insert key value members) members

/-- Define the table of a header by its pairs. A table on the way to an earlier header is taken
over; any other table of that name stands in the way. -/
def define (pairs : List (List String × Toml)) : List String → Members → Option Members
  | [], _ => none
  | [key], members =>
    match members.lookup key with
    | none => (insertAll pairs []).map fun inner => setEntry members key (.table .header inner)
    | some (.table .implied inner) =>
      (insertAll pairs inner).map fun inner => setEntry members key (.table .header inner)
    | some _ => none
  | key :: next :: rest, members =>
    match members.lookup key with
    | none =>
      (define pairs (next :: rest) []).map fun inner => setEntry members key (.table .implied inner)
    | some (.table origin inner) =>
      (define pairs (next :: rest) inner).map fun inner =>
        setEntry members key (.table origin inner)
    | some (.tables newest older) =>
      (define pairs (next :: rest) newest).map fun newest =>
        setEntry members key (.tables newest older)
    | some (.value _) => none

/-- Append a table to the list of tables of a header. -/
def append (pairs : List (List String × Toml)) : List String → Members → Option Members
  | [], _ => none
  | [key], members =>
    match members.lookup key with
    | none => (insertAll pairs []).map fun inner => setEntry members key (.tables inner [])
    | some (.tables newest older) =>
      (insertAll pairs []).map fun inner => setEntry members key (.tables inner (newest :: older))
    | some _ => none
  | key :: next :: rest, members =>
    match members.lookup key with
    | none =>
      (append pairs (next :: rest) []).map fun inner => setEntry members key (.table .implied inner)
    | some (.table origin inner) =>
      (append pairs (next :: rest) inner).map fun inner =>
        setEntry members key (.table origin inner)
    | some (.tables newest older) =>
      (append pairs (next :: rest) newest).map fun newest =>
        setEntry members key (.tables newest older)
    | some (.value _) => none

mutual

/-- The value of a finished entry. -/
def Entry.finish : Entry → Toml
  | .value value => value
  | .table _ members => .table (finishMembers members)
  | .tables newest older => .array ((.table (finishMembers newest) :: finishTables older).reverse)

/-- The members of a finished table. -/
def finishMembers : List (String × Entry) → List (String × Toml)
  | [] => []
  | (key, entry) :: rest => (key, entry.finish) :: finishMembers rest

/-- Finished tables of a list. -/
def finishTables : List (List (String × Entry)) → List Toml
  | [] => []
  | members :: rest => .table (finishMembers members) :: finishTables rest

end

end BitGraph.Toml
