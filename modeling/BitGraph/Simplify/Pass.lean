/-
This file defines the four passes. Each walks over the live operations in the
order that was fixed before its first change: an operation that an earlier step
erased is passed over, and one that was added is left to the next pass. A pass
says whether it changed anything.
-/

import BitGraph.Canonical
import BitGraph.Graph.Order
import BitGraph.Simplify.Session

namespace BitGraph

/-- The warning about a division by a constant zero. -/
def divisionWarning (operation : Operation) : Diagnostic :=
  ⟨.warning, .divisionByZero, "division by constant zero", none,
    [operation.render ++ " is left unfolded"],
    ["guard the divisor or select a value for the zero case"]⟩

namespace Workspace

/-- Put a proposal in the place of an operation and record that. -/
def replace (work : Workspace) (id : Nat) (replacement : Replacement) (code : Code)
    (message : String) : Attempt Workspace Bool :=
  (work.edit (·.replace id replacement)).andThen fun _ work =>
    .succeed true (work.record code id message)

/-- Fold one operation. -/
def foldStep (id : Nat) (work : Workspace) : Attempt Workspace Bool :=
  match work.graph.operation? id with
  | none => .succeed false work
  | some operation =>
    match operation.fold work.graph.scope work.session.plan.folding with
    | .folded replacement =>
      work.replace id replacement .folded ("folded to " ++ replacement.render)
    | .unchanged => .succeed false work
    | .declined reason =>
      if reason.isDivisionByZero then
        .succeed false
          { work with session := work.session.warnOnce id (divisionWarning operation) }
      else
        .succeed false work

/-- Bring the operands of one operation into canonical order. -/
def canonicalizeStep (id : Nat) (work : Workspace) : Attempt Workspace Bool :=
  match work.graph.operation? id with
  | none => .succeed false work
  | some operation =>
    match operation.canonicalize work.graph.scope with
    | some replacement =>
      work.replace id replacement .canonicalized ("canonicalized to " ++ replacement.render)
    | none => .succeed false work

/-- Merge each operation into the first equal one met before it. Since operations come after
those they read, the operands of an equal operation have been merged by then. -/
def mergeWalk : List Nat → List (Operation × Nat) → Workspace → Attempt Workspace Bool
  | [], _, work => .succeed false work
  | id :: rest, met, work =>
    match work.graph.stored? id with
    | none => mergeWalk rest met work
    | some operation =>
      match met.lookup operation with
      | none => mergeWalk rest ((operation, id) :: met) work
      | some first =>
        (work.edit (·.replaceUses (.result id) (.result first))).andThen fun _ work =>
          (work.edit (·.erase id)).andThen fun _ work =>
            (mergeWalk rest met
              (work.record .merged id ("merged into %" ++ Numeral.write 10 first))).andThen
              fun _ work => .succeed true work

/-- Erase one operation. -/
def eraseStep (id : Nat) (work : Workspace) : Attempt Workspace Bool :=
  (work.edit (·.erase id)).andThen fun _ work =>
    let name := ((work.graph.stored? id).map (·.kind.name)).getD ""
    .succeed true (work.record .erased id ("erased unused " ++ name))

end Workspace

/-- Make a pass over a graph. Nothing is changed if its operations cannot be put in order.
Operations that are not needed are erased from the last to the first, so that each has
lost its readers before its turn comes. -/
def Pass.run (pass : Pass) (work : Workspace) : Attempt Workspace Bool :=
  match work.graph.order with
  | .error reason => .fail reason work
  | .ok order =>
    match pass with
    | .fold => Workspace.walk Workspace.foldStep order work
    | .canonicalize => Workspace.walk Workspace.canonicalizeStep order work
    | .merge => Workspace.mergeWalk order [] work
    | .sweep =>
      let unneeded := work.graph.unneeded
      Workspace.walk Workspace.eraseStep (order.reverse.filter (· ∈ unneeded)) work

end BitGraph
