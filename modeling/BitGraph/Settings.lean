/-
This file reads plans from settings files. A settings file is a TOML document
with four sections, all of which may be missing, as may everything in them:
what is missing has the value it has in the standard plan. A section is a table
of its fields or an array of their values in order, of which the last ones may
be missing and more than there are fields do not matter. Unknown names are
refused. Two values are then judged by their range.
-/

import BitGraph.Simplify.Plan
import BitGraph.Toml.Document

namespace BitGraph

/-- Why settings were refused. -/
inductive SettingsError where
  /-- The file is missing or holds no text. -/
  | unreadable
  /-- The text is no settings file. -/
  | malformed
  /-- A value is out of its range. -/
  | invalid (key reason : String)
  deriving DecidableEq, Repr

/-- The wording of a refusal. -/
def SettingsError.message : SettingsError → String
  | .unreadable => "failed to read configuration"
  | .malformed => "failed to parse configuration"
  | .invalid key reason => s!"invalid value for {key}: {reason}"

namespace Toml

/-- The values of the fields of a section that are given, in the order of the fields' names. -/
def sectionFields (names : List String) : Toml → Option (List (Option Toml))
  | .table members =>
    if members.all fun (name, _) => names.contains name then
      some (names.map fun name => members.lookup name)
    else none
  | .array items => some ((List.range names.length).map fun index => items[index]?)
  | _ => none

/-- A field that is a switch. -/
def switch (standard : Bool) : Option Toml → Option Bool
  | none => some standard
  | some (.boolean value) => some value
  | some _ => none

/-- A field that is a number from zero up and below a bound. -/
def count (bound standard : Nat) : Option Toml → Option Nat
  | none => some standard
  | some (.integer (.ofNat value)) => if value < bound then some value else none
  | some _ => none

end Toml

namespace Plan

/-- Read the section about the strictness. -/
def readVerify (plan : Plan) (content : Toml) : Option Plan := do
  match ← content.sectionFields ["min_variadic_arity"] with
  | [minArity] =>
    let minArity ← Toml.count Toml.integerBound plan.strictness.minArity minArity
    return { plan with strictness := ⟨minArity⟩ }
  | _ => none

/-- Read the section about folding. -/
def readFold (plan : Plan) (content : Toml) : Option Plan := do
  match ← content.sectionFields ["enabled", "partial"] with
  | [enabled, mixed] =>
    let fold ← Toml.switch plan.fold enabled
    let mixed ← Toml.switch plan.folding.mixed mixed
    return { plan with fold, folding := ⟨mixed⟩ }
  | _ => none

/-- Read the section about canonical order. -/
def readCanonicalize (plan : Plan) (content : Toml) : Option Plan := do
  match ← content.sectionFields ["enabled"] with
  | [enabled] =>
    let canonicalize ← Toml.switch plan.canonicalize enabled
    return { plan with canonicalize }
  | _ => none

/-- Read the section about the run. -/
def readDriver (plan : Plan) (content : Toml) : Option Plan := do
  match ← content.sectionFields ["max_iterations", "cse", "dce", "trace_rewrites"] with
  | [maxIterations, merge, sweep, trace] =>
    let maxIterations ← Toml.count Numeral.wordBound plan.maxIterations maxIterations
    let merge ← Toml.switch plan.merge merge
    let sweep ← Toml.switch plan.sweep sweep
    let trace ← Toml.switch plan.trace trace
    return { plan with maxIterations, merge, sweep, trace }
  | _ => none

/-- Read a section into a plan. -/
def readSection (plan : Plan) : String × Toml → Option Plan
  | ("verify", content) => plan.readVerify content
  | ("fold", content) => plan.readFold content
  | ("canonicalize", content) => plan.readCanonicalize content
  | ("driver", content) => plan.readDriver content
  | _ => none

/-- Judge the ranges of the values of a plan that was read. -/
def validate (plan : Plan) : Except SettingsError Plan :=
  let minArity := plan.strictness.minArity
  if minArity ≠ 1 ∧ minArity ≠ 2 then
    .error (.invalid "verify.min_variadic_arity" s!"must be 1 or 2, got {minArity}")
  else if plan.maxIterations = 0 then
    .error (.invalid "driver.max_iterations" "must be at least 1")
  else
    .ok plan

/-- The plan that a text describes. -/
def ofSettings (text : String) : Except SettingsError Plan :=
  match (Toml.parse text).bind fun sections => sections.foldlM readSection {} with
  | some plan => plan.validate
  | none => .error .malformed

/-- The plan that the content of a file describes; there is none for a missing file. -/
def ofSettingsFile (content : Option ByteArray) : Except SettingsError Plan :=
  match content.bind String.fromUTF8? with
  | some text => ofSettings text
  | none => .error .unreadable

end Plan

end BitGraph
