/-
This file defines what a simplification works on: the graph, and beside it the
record of the run. The record counts the changes, holds the diagnostics, and
remembers which operations were warned about, since a run warns about an
operation once.
-/

import BitGraph.Attempt
import BitGraph.Diagnostic.Sink
import BitGraph.Graph.Edit
import BitGraph.Simplify.Codes
import BitGraph.Simplify.Plan

namespace BitGraph

/-- The record of a run. -/
structure Session where
  plan : Plan
  sink : Sink
  /-- The operations that were warned about. -/
  warned : List Nat := []
  /-- How many changes were made. -/
  changes : Nat := 0
  deriving DecidableEq, Repr

namespace Session

/-- Count a change, and report it if the plan asks for that. -/
def record (session : Session) (code : Code) (id : Nat) (message : String) : Session :=
  let counted := { session with changes := session.changes + 1 }
  if session.plan.trace then
    { counted with sink := session.sink.emit ⟨.note, code, message, some id, [], []⟩ }
  else
    counted

/-- Warn about an operation, unless this run has done so before. -/
def warnOnce (session : Session) (id : Nat) (diagnostic : Diagnostic) : Session :=
  if id ∈ session.warned then
    session
  else
    { session with
      warned := id :: session.warned
      sink := session.sink.emit { diagnostic with op := some id } }

@[simp] theorem plan_record (session : Session) (code : Code) (id : Nat) (message : String) :
    (session.record code id message).plan = session.plan := by
  simp only [record]
  split <;> rfl

@[simp] theorem warned_record (session : Session) (code : Code) (id : Nat) (message : String) :
    (session.record code id message).warned = session.warned := by
  simp only [record]
  split <;> rfl

@[simp] theorem changes_record (session : Session) (code : Code) (id : Nat) (message : String) :
    (session.record code id message).changes = session.changes + 1 := by
  simp only [record]
  split <;> rfl

@[simp] theorem plan_warnOnce (session : Session) (id : Nat) (diagnostic : Diagnostic) :
    (session.warnOnce id diagnostic).plan = session.plan := by
  unfold warnOnce
  split <;> rfl

@[simp] theorem changes_warnOnce (session : Session) (id : Nat) (diagnostic : Diagnostic) :
    (session.warnOnce id diagnostic).changes = session.changes := by
  unfold warnOnce
  split <;> rfl

end Session

/-- A graph in the course of a run. -/
structure Workspace where
  graph : Graph
  session : Session
  deriving DecidableEq, Repr

namespace Workspace

/-- Edit the graph. -/
def edit {Result : Type} (work : Workspace) (change : Graph → Attempt Graph Result) :
    Attempt Workspace Result :=
  (change work.graph).within fun graph => { work with graph }

/-- Count and report a change. -/
def record (work : Workspace) (code : Code) (id : Nat) (message : String) : Workspace :=
  { work with session := work.session.record code id message }

/-- Take a step at each number in turn, and say whether one of them made a change. A step that
is refused ends the walk. -/
def walk (step : Nat → Workspace → Attempt Workspace Bool) :
    List Nat → Workspace → Attempt Workspace Bool
  | [], work => .succeed false work
  | id :: rest, work =>
    (step id work).andThen fun changed work =>
      (walk step rest work).andThen fun more work => .succeed (changed || more) work

end Workspace

end BitGraph
