/-
This file defines plans: which passes a simplification makes, how far they go
and how often they are repeated. The passes of a plan are always made in the
same order.
-/

import BitGraph.Folding
import BitGraph.Kind.Signature

namespace BitGraph

/-- A walk over a graph that changes one kind of thing. -/
inductive Pass where
  /-- Replace operations by simpler ones. -/
  | fold
  /-- Bring operands into canonical order. -/
  | canonicalize
  /-- Merge equal operations. -/
  | merge
  /-- Erase what no output needs. -/
  | sweep
  deriving DecidableEq, Repr

/-- The name of a pass. -/
def Pass.name : Pass → String
  | .fold => "fold"
  | .canonicalize => "canonicalize"
  | .merge => "cse"
  | .sweep => "dce"

/-- How a graph is simplified. -/
structure Plan where
  /-- The strictness for graphs that this plan is meant for. -/
  strictness : Strictness := {}
  folding : FoldOptions := {}
  fold : Bool := true
  canonicalize : Bool := true
  merge : Bool := true
  sweep : Bool := true
  /-- How often the passes are made at most. -/
  maxIterations : Nat := 16
  /-- Report every change. -/
  trace : Bool := false
  deriving DecidableEq, Repr

/-- The passes of a plan, in order. -/
def Plan.passes (plan : Plan) : List Pass :=
  (if plan.fold then [.fold] else [])
    ++ (if plan.canonicalize then [.canonicalize] else [])
    ++ (if plan.merge then [.merge] else [])
    ++ (if plan.sweep then [.sweep] else [])

end BitGraph
