/-
This file takes edits apart. Whatever an edit does to the operations of a graph,
and whether it goes through or is refused, comes down to a sequence of three
changes: storing a well-formed operation, redirecting a value to another one of
its type, and dropping an operation that nothing reads. What each of these
keeps, every edit keeps; the first result of that kind is that the parts of a
graph go on fitting together.
-/

import BitGraph.Proofs.Graph.UseLists

namespace BitGraph

namespace Attempt

variable {State Other Result Next : Type}

/-- What the first part of an attempt establishes and the second part keeps holds in the end,
also where one of them is refused. -/
theorem holds_andThen (holds : State → Prop) {attempt : Attempt State Result}
    {next : Result → State → Attempt State Next} (first : holds attempt.state)
    (later : ∀ result state, holds state → holds (next result state).state) :
    holds (attempt.andThen next).state := by
  obtain ⟨outcome, state⟩ := attempt
  cases outcome with
  | ok result => exact later result state first
  | error reason => exact first

end Attempt

namespace Graph

/-! ### The three changes -/

/-- One change of the operations of a graph. -/
inductive Change (graph : Graph) : Graph → Prop where
  | store (operation : Operation)
    (verified : operation.verify graph.scope graph.strictness = .ok ()) :
    Change graph (graph.store operation)
  | redirect {source target : Value} {type : BitType} (apart : source ≠ target)
    (typedSource : graph.typeOf source = some type)
    (typedTarget : graph.typeOf target = some type) :
    Change graph (graph.redirect source target)
  | drop {id : Nat} {operation : Operation} (found : graph.operation? id = some operation)
    (unused : graph.uses (.result id) = []) : Change graph (graph.drop id operation)

/-- Any number of changes, one after the other. -/
abbrev Changes : Graph → Graph → Prop :=
  Relation.ReflTransGen Change

theorem Change.wellFormed {graph next : Graph} (change : graph.Change next)
    (wellFormed : graph.WellFormed) : next.WellFormed := by
  cases change with
  | store operation verified => exact wellFormed.store verified
  | redirect apart typedSource typedTarget =>
    exact wellFormed.redirect apart typedSource typedTarget
  | drop found unused => exact wellFormed.drop found unused

theorem Changes.wellFormed {graph next : Graph} (changes : graph.Changes next)
    (wellFormed : graph.WellFormed) : next.WellFormed := by
  induction changes with
  | refl => exact wellFormed
  | tail _ change inductionHypothesis => exact change.wellFormed inductionHypothesis

theorem Change.frame {graph next : Graph} (change : graph.Change next) : Frame graph next := by
  cases change with
  | store operation _ => exact (graph.extends_store operation).toFrame
  | redirect _ _ _ => exact frame_redirect graph _ _
  | @drop id operation _ _ => exact (graph.extends_drop id operation).toFrame.symm

theorem Changes.frame {graph next : Graph} (changes : graph.Changes next) :
    Frame graph next := by
  induction changes with
  | refl => exact .refl graph
  | tail _ change inductionHypothesis => exact inductionHypothesis.trans change.frame

/-- One graph comes from another by storing a well-formed operation. -/
def Adds (graph next : Graph) : Prop :=
  ∃ operation : Operation, operation.verify graph.scope graph.strictness = .ok () ∧
    next = graph.store operation

/-- Any number of well-formed operations stored, one after the other. -/
abbrev Growth : Graph → Graph → Prop :=
  Relation.ReflTransGen Adds

theorem Growth.changes {graph next : Graph} (growth : graph.Growth next) :
    graph.Changes next := by
  refine Relation.ReflTransGen.mono (fun first second adds => ?_) _ _ growth
  obtain ⟨operation, verified, rfl⟩ := adds
  exact .store operation verified

theorem Growth.extends {graph next : Graph} (growth : graph.Growth next) :
    Extends graph next := by
  induction growth with
  | refl => exact .refl graph
  | tail _ adds inductionHypothesis =>
    obtain ⟨operation, _, rfl⟩ := adds
    exact inductionHypothesis.trans (extends_store _ operation)

/-! ### Edits -/

theorem insert_eq_succeed {graph : Graph} {operation : Operation}
    (verified : operation.verify graph.scope graph.strictness = .ok ()) :
    graph.insert operation = .succeed (.result graph.nodes.size) (graph.store operation) := by
  rw [Graph.insert, verified]

theorem replaceUses_eq_succeed {graph : Graph} {source target : Value} {type : BitType}
    (apart : source ≠ target) (typedSource : graph.typeOf source = some type)
    (typedTarget : graph.typeOf target = some type) :
    graph.replaceUses source target =
      .succeed (graph.uses source).length (graph.redirect source target) := by
  simp only [replaceUses, if_neg apart, typedSource, typedTarget, if_pos]
  rfl

theorem erase_eq_succeed {graph : Graph} {id : Nat} {operation : Operation}
    (found : graph.operation? id = some operation) (unused : graph.uses (.result id) = []) :
    graph.erase id = .succeed () (graph.drop id operation) := by
  simp only [erase, found, unused, List.isEmpty_nil, if_pos]
  rfl

theorem growth_insert (graph : Graph) (operation : Operation) :
    graph.Growth (graph.insert operation).state := by
  cases verified : operation.verify graph.scope graph.strictness with
  | error reason =>
    rw [Graph.insert, verified]
    exact .refl
  | ok _ =>
    rw [insert_eq_succeed verified]
    exact .single ⟨operation, verified, rfl⟩

theorem growth_build (graph : Graph) (blueprint : Blueprint) :
    graph.Growth (graph.build blueprint).state := by
  unfold build
  split
  · exact growth_insert graph _
  · exact .refl

theorem growth_placeOperands (operands : List Operand) (graph : Graph) :
    graph.Growth (placeOperands operands graph).state := by
  induction operands generalizing graph with
  | nil => exact .refl
  | cons operand rest inductionHypothesis =>
    cases operand with
    | existing value =>
      exact Attempt.holds_andThen (graph.Growth ·) (inductionHypothesis graph)
        fun _ _ growth => growth
    | pending bits =>
      refine Attempt.holds_andThen (graph.Growth ·) (growth_build graph _) fun _ state growth => ?_
      exact Attempt.holds_andThen (graph.Growth ·) (growth.trans (inductionHypothesis state))
        fun _ _ growth => growth

theorem growth_materialize (graph : Graph) (replacement : Replacement) :
    graph.Growth (graph.materialize replacement).state := by
  cases replacement with
  | existing value =>
    simp only [materialize]
    split <;> exact .refl
  | constant bits => exact growth_build graph _
  | fresh shape =>
    exact Attempt.holds_andThen (graph.Growth ·) (growth_placeOperands shape.operands graph)
      fun _ state growth => growth.trans (growth_build state _)

theorem changes_replaceUses (graph : Graph) (source target : Value) :
    graph.Changes (graph.replaceUses source target).state := by
  by_cases apart : source = target
  · rw [replaceUses, if_pos apart]
    exact .refl
  · cases typedSource : graph.typeOf source with
    | none =>
      rw [replaceUses, if_neg apart, typedSource]
      exact .refl
    | some type =>
      by_cases typedTarget : graph.typeOf target = some type
      · rw [replaceUses_eq_succeed apart typedSource typedTarget]
        exact .single (.redirect apart typedSource typedTarget)
      · rw [replaceUses, if_neg apart, typedSource]
        cases other : graph.typeOf target with
        | none => exact .refl
        | some otherType =>
          have differ : ¬ type = otherType := fun same => typedTarget (same ▸ other)
          simp only [if_neg differ]
          exact .refl

theorem changes_erase (graph : Graph) (id : Nat) : graph.Changes (graph.erase id).state := by
  cases found : graph.operation? id with
  | none =>
    rw [erase, found]
    exact .refl
  | some operation =>
    by_cases unused : graph.uses (.result id) = []
    · rw [erase_eq_succeed found unused]
      exact .single (.drop found unused)
    · have kept : (graph.uses (.result id)).isEmpty = false := by simpa using unused
      simp only [erase, found, kept]
      exact .refl

theorem changes_replace (graph : Graph) (id : Nat) (replacement : Replacement) :
    graph.Changes (graph.replace id replacement).state := by
  unfold replace
  split
  · refine Attempt.holds_andThen (graph.Changes ·) (growth_materialize graph replacement).changes
      fun value state changes => ?_
    split
    · exact changes
    · refine Attempt.holds_andThen (graph.Changes ·) (changes.trans (changes_replaceUses state _ _))
        fun _ state changes => ?_
      exact Attempt.holds_andThen (graph.Changes ·) (changes.trans (changes_erase state id))
        fun _ _ changes => changes
  · exact .refl

end Graph

end BitGraph
