/-
This file says when a proposal suits the operation that it is drawn up for. It
has the type of the operation, it is well formed once it is built, it mentions
only what the operation reads, at once or through one more operation, and its
result is the result of the operation. The last point comes in two strengths:
folding may turn the failure of an operation into a pattern, since it forgets
operands that decide nothing, while reordering operands keeps failures too.

Results are given to all values at once, failures among them. They respect a
scope if they are what the types, the constants and the slices of the scope
allow them to be.
-/

import BitGraph.Proofs.Operation.Evaluation
import BitGraph.Valuation

namespace BitGraph

/-! ### Results of all values -/

/-- A result for every value. -/
abbrev Outcomes : Type :=
  Value → Except GraphError Bits

/-- The results of values are those that a scope knows of. -/
structure Outcomes.Respects (outcomes : Outcomes) (scope : Scope) : Prop where
  admits : ∀ value type, scope.typeOf value = some type → type.Admits (outcomes value)
  constant : ∀ value bits, scope.constant? value = some bits → outcomes value = .ok bits
  slice : ∀ value operation, scope.definition value = some operation →
    operation.kind = .extract →
      outcomes value = operation.combine (operation.operands.map outcomes)

/-- The result of an operand. -/
def Operand.outcome (outcomes : Outcomes) : Operand → Except GraphError Bits
  | .existing value => outcomes value
  | .pending bits => .ok bits

/-- The result of an operation that is still to be built. -/
def Shape.outcome (shape : Shape) (outcomes : Outcomes) : Except GraphError Bits :=
  let operation : Operation := ⟨shape.kind, [], shape.attr, shape.type⟩
  operation.combine (shape.operands.map (Operand.outcome outcomes))

/-- The result of a proposal. -/
def Replacement.outcome (outcomes : Outcomes) : Replacement → Except GraphError Bits
  | .existing value => outcomes value
  | .constant bits => .ok bits
  | .fresh shape => shape.outcome outcomes

theorem map_outcome_existing (outcomes : Outcomes) (values : List Value) :
    (values.map Operand.existing).map (Operand.outcome outcomes) = values.map outcomes :=
  List.map_map

/-! ### How far results may differ -/

/-- A pattern stays as it is, and a failure may become anything. -/
def Refines (before after : Except GraphError Bits) : Prop :=
  ∀ bits, before = .ok bits → after = .ok bits

theorem Refines.refl (result : Except GraphError Bits) : Refines result result :=
  fun _ same => same

/-- A relation between results that operations carry on: what holds between the results of the
operands holds between the results of the operation. -/
structure Tolerance (related : Except GraphError Bits → Except GraphError Bits → Prop) :
    Prop where
  refl : ∀ result, related result result
  trans : ∀ {first second third}, related first second → related second third →
    related first third
  combine : ∀ (operation : Operation) {before after : List (Except GraphError Bits)},
    List.Forall₂ related before after → related (operation.combine before) (operation.combine after)
  refines : ∀ {before after}, related before after → Refines before after

theorem tolerance_eq : Tolerance Eq where
  refl _ := rfl
  trans := Eq.trans
  combine operation before after each := by
    rw [List.forall₂_eq_eq_eq] at each
    rw [each]
  refines same := same ▸ .refl _

/-- Results that are all there stay as they are. -/
theorem mapM_of_refines {before after : List (Except GraphError Bits)}
    (each : List.Forall₂ Refines before after) {patterns : List Bits}
    (all : before.mapM id = .ok patterns) : after.mapM id = .ok patterns := by
  rw [mapM_eq_ok_iff] at all ⊢
  induction each generalizing patterns with
  | nil => exact all
  | cons head _ inductionHypothesis =>
    cases all with
    | cons first rest => exact .cons (head _ first) (inductionHypothesis rest)

theorem tolerance_refines : Tolerance Refines where
  refl := .refl
  trans first second bits same := second bits (first bits same)
  combine operation before after each bits computed := by
    unfold Operation.combine at computed ⊢
    cases all : before.mapM id with
    | error reason =>
      rw [all] at computed
      cases computed
    | ok arguments =>
      rw [mapM_of_refines each all, ← all]
      exact computed
  refines related := related

/-! ### Proposals that suit an operation -/

/-- The values that an operation reads, at once or through one more operation. -/
def Scope.Near (scope : Scope) (operation : Operation) (value : Value) : Prop :=
  value ∈ operation.operands ∨ ∃ inner ∈ operation.operands, ∃ definition,
    scope.definition inner = some definition ∧ value ∈ definition.operands

/-- The operands of a shape fit together, whatever the strictness, as long as it asks for two
operands at most. -/
def Shape.Fits (shape : Shape) (scope : Scope) : Prop :=
  ∃ types, List.Forall₂ (fun operand type => Operand.type? scope operand = some type)
    shape.operands types ∧ ∀ strictness : Strictness, strictness.minArity ≤ 2 →
      (⟨shape.kind, [], shape.attr, shape.type⟩ : Operation).Accepts strictness types

/-- The constant that is still to be built for an operand. -/
def Operand.pending? : Operand → Option Bits
  | .existing _ => none
  | .pending bits => some bits

/-- The constants that are still to be built for a shape. -/
def Shape.pending (shape : Shape) : List Bits :=
  shape.operands.filterMap Operand.pending?

/-- A proposal can stand in the place of an operation. It does not grow: a new operation has
no more operands than the one it replaces, even if new constants are counted twice. -/
structure Replacement.Suits (replacement : Replacement) (scope : Scope) (operation : Operation)
    (related : Except GraphError Bits → Except GraphError Bits → Prop) : Prop where
  type : replacement.type? scope = some operation.type
  near : ∀ value ∈ replacement.values, scope.Near operation value
  fits : ∀ shape, replacement = .fresh shape → shape.Fits scope
  size : ∀ shape, replacement = .fresh shape →
    shape.operands.length + shape.pending.length ≤ operation.operands.length
  outcome : ∀ outcomes : Outcomes, outcomes.Respects scope →
    related (operation.combine (operation.operands.map outcomes)) (replacement.outcome outcomes)

section Suits

variable {scope : Scope} {operation : Operation}
  {related : Except GraphError Bits → Except GraphError Bits → Prop}

theorem suits_existing {value : Value} (member : value ∈ operation.operands)
    (type : scope.typeOf value = some operation.type)
    (outcome : ∀ outcomes : Outcomes, outcomes.Respects scope →
      related (operation.combine (operation.operands.map outcomes)) (outcomes value)) :
    (Replacement.existing value).Suits scope operation related where
  type := type
  near other here := .inl (List.mem_singleton.mp here ▸ member)
  fits _ fresh := by cases fresh
  size _ fresh := by cases fresh
  outcome := outcome

theorem suits_constant {bits : Bits} (width : bits.width = operation.type.width)
    (outcome : ∀ outcomes : Outcomes, outcomes.Respects scope →
      related (operation.combine (operation.operands.map outcomes)) (.ok bits)) :
    (Replacement.constant bits).Suits scope operation related where
  type := congrArg some (BitType.eq_of_width width)
  near other here := by cases here
  fits _ fresh := by cases fresh
  size _ fresh := by cases fresh
  outcome := outcome

end Suits

end BitGraph
