/-
This file says what bringing the operands of one operation into canonical order
comes to in a graph that can arise. What is proposed has the value of the
operation for whatever patterns its operands may have, it can be built, and
nothing is proposed for what was built. The value depends on the operands alone,
so their patterns need not agree with how the operands come about.
-/

import BitGraph.Proofs.History
import BitGraph.Proofs.Proposal.Soundness
import BitGraph.Proofs.Proposal.UniqueSpelling
import BitGraph.Proofs.Simplify.Settling

namespace BitGraph

/-! ### What is known of some values -/

/-- What a scope knows of these values: their types, and which of them are which constants. -/
def Scope.glimpse (scope : Scope) (values : List Value) : Scope where
  typeOf value := if value ∈ values then scope.typeOf value else none
  definition value :=
    if value ∈ values then (scope.definition value).filter Operation.isConstant else none

section Glimpse

variable {scope : Scope} {values : List Value} {value : Value}

theorem Scope.typeOf_glimpse (member : value ∈ values) :
    (scope.glimpse values).typeOf value = scope.typeOf value :=
  if_pos member

theorem Scope.constant?_glimpse (member : value ∈ values) :
    (scope.glimpse values).constant? value = scope.constant? value := by
  simp only [Scope.constant?, glimpse, if_pos member]
  cases defined : scope.definition value with
  | none => rfl
  | some definition =>
    by_cases constant : definition.isConstant = true
    · rw [Option.filter_some, if_pos constant]
    · rw [Option.filter_some, if_neg constant]
      cases known : definition.constant? with
      | none => exact known.symm
      | some bits =>
        have kind := Operation.kind_of_constant? known
        exact absurd (by rw [Operation.isConstant, kind]; rfl) constant

theorem Scope.definition_of_glimpse {definition : Operation}
    (defined : (scope.glimpse values).definition value = some definition) :
    value ∈ values ∧ scope.definition value = some definition ∧ definition.kind = .constant := by
  simp only [glimpse, Option.ite_none_right_eq_some, Option.filter_eq_some_iff] at defined
  obtain ⟨member, found, constant⟩ := defined
  exact ⟨member, found, beq_iff_eq.mp constant⟩

theorem Scope.Typed.glimpse (typed : scope.Typed) (values : List Value) :
    (scope.glimpse values).Typed := by
  intro value definition defined
  obtain ⟨member, found, _⟩ := Scope.definition_of_glimpse defined
  rw [Scope.typeOf_glimpse member, typed value definition found]

/-- Patterns of the right widths that are right about the constants agree with all that is known. -/
theorem Valuation.respects_glimpse {valuation : Valuation}
    (width : ∀ value ∈ values, ∀ type, scope.typeOf value = some type →
      (valuation value).width = type.width)
    (constant : ∀ value ∈ values, ∀ bits, scope.constant? value = some bits →
      valuation value = bits) :
    valuation.Respects (scope.glimpse values) where
  width value type typed := by
    obtain ⟨member, found⟩ := Option.ite_none_right_eq_some.mp typed
    exact width value member type found
  constant value bits known := by
    obtain ⟨definition, defined, _⟩ := Option.bind_eq_some_iff.mp known
    have member := (Scope.definition_of_glimpse defined).1
    exact constant value member bits (Scope.constant?_glimpse member ▸ known)
  slice value definition defined kind := by
    have constant := (Scope.definition_of_glimpse defined).2.2
    cases kind.symm.trans constant

end Glimpse

/-! ### The value of a canonical form -/

section Proposed

variable {scope : Scope} {operation : Operation} {strictness : Strictness}
  {replacement : Replacement} {algebra : Algebra}
  (proposed : operation.canonicalize scope = some replacement)

include proposed in
/-- Whatever patterns the operands have, the operation computes one, and what is proposed denotes
the same. -/
theorem canonicalize_denotes (typed : scope.Typed)
    (verified : operation.verify scope strictness = .ok ()) {valuation : Valuation}
    (width : ∀ value ∈ operation.operands, ∀ type, scope.typeOf value = some type →
      (valuation value).width = type.width)
    (constant : ∀ value ∈ operation.operands, ∀ bits, scope.constant? value = some bits →
      valuation value = bits) :
    ∃ bits, operation.evaluate (operation.operands.map valuation) = .ok bits ∧
      bits.width = operation.type.width ∧ replacement.denote valuation = .ok bits := by
  obtain ⟨algebra, canonical, known, found, differs, _⟩ := canonicalize_eq_some proposed
  obtain ⟨types, each, accepts⟩ := (operation.verify_eq_ok_iff scope strictness).mp verified
  have nonempty : types ≠ [] := by
    rintro rfl
    exact operands_ne_nil found differs (List.forall₂_nil_right_iff.mp each)
  have widths : List.Forall₂ (fun bits type => Bits.width bits = BitType.width type)
      (operation.operands.map valuation) types := by
    have both := (List.forall₂_and_left _ _).mpr ⟨width, each⟩
    exact List.forall₂_map_left_iff.mpr (both.imp fun value type read => read.1 type read.2)
  obtain ⟨bits, computed, same⟩ := Operation.yields_of_ne_nil known accepts nonempty widths
  refine ⟨bits, computed, same, ?_⟩
  have verifiedThere : operation.verify (scope.glimpse operation.operands) strictness = .ok () :=
    Operation.verify_of_typeOf verified fun value => Scope.typeOf_glimpse
  have proposedThere :
      operation.canonicalize (scope.glimpse operation.operands) = some replacement :=
    (canonicalize_congr fun value => Scope.constant?_glimpse).trans proposed
  have suits := canonicalize_suits (typed.glimpse _) verifiedThere proposedThere
  have outcome := suits.outcome _ (Valuation.respects_glimpse width constant).outcomes
  rw [Replacement.outcome_valuation] at outcome
  rw [← outcome, ← computed, ← Operation.combine_map_ok, List.map_map]
  rfl

/-! ### The operands of a canonical form -/

/-- The constant that an operand is. -/
def Operand.constant? (scope : Scope) : Operand → Option Bits
  | .existing value => scope.constant? value
  | .pending bits => some bits

/-- The operands of a canonical form are the variables among the operands of the operation, in
order, and behind them at most one constant. -/
structure Operation.Orders (operation : Operation) (scope : Scope) (values : List Value)
    (tail : List Operand) : Prop where
  sorted : values.Pairwise fun earlier later => earlier.le later = true
  mem_iff : ∀ value, value ∈ values ↔ value ∈ scope.variables operation.operands
  /-- Conjunctions and disjunctions read each variable once, so theirs ascend strictly. -/
  once : operation.kind = .and ∨ operation.kind = .or → values.Nodup
  /-- Sums, products and symmetric differences read it as often as before. -/
  perm : ¬ (operation.kind = .and ∨ operation.kind = .or) →
    values.Perm (scope.variables operation.operands)
  short : tail.length ≤ 1
  constant : ∀ operand ∈ tail, (operand.constant? scope).isSome = true

theorem TailRule.isSome_constant? {constants : List Value}
    {tail : List Operand} (rule : TailRule algebra scope constants tail)
    (isConstant : ∀ value ∈ constants, (scope.constant? value).isSome = true) :
    ∀ operand ∈ tail, (operand.constant? scope).isSome = true := by
  intro operand member
  cases rule with
  | none => cases member
  | one value =>
    cases List.mem_singleton.mp member
    exact isConstant value List.mem_cons_self
  | merged _ _ =>
    cases List.mem_singleton.mp member
    rfl

include proposed in
/-- What is proposed is a value that the operation reads, a constant, or an operation of the same
kind and type whose operands are in order. -/
theorem canonicalize_cases :
    (∃ value ∈ operation.operands, replacement = .existing value) ∨
    (∃ bits, replacement = .constant bits) ∨
    ∃ values tail, operation.Orders scope values tail ∧ replacement =
      .fresh ⟨operation.kind, values.map .existing ++ tail, .none, operation.type⟩ := by
  obtain ⟨algebra, canonical, known, found, _, rfl⟩ := canonicalize_eq_some proposed
  unfold Operation.ofCanonical
  split
  · exact .inl ⟨_, mem_of_existing_canonical found (List.mem_singleton_self _), rfl⟩
  · exact .inr (.inl ⟨_, rfl⟩)
  · obtain ⟨tail, rule, rfl⟩ := exists_tail found
    refine .inr (.inr ⟨_, tail, ⟨?_, ?_, ?_, ?_, rule.length_le, ?_⟩, rfl⟩)
    · exact pairwise_canonicalValues algebra _
    · intro value
      rw [canonicalVariables_eq, mem_canonicalValues]
    · exact fun kind => nodup_canonicalValues ((idempotent_iff known).mpr kind) _
    · intro kind
      have repeating : algebra.idempotent = false :=
        Bool.eq_false_of_not_eq_true fun idempotent => kind ((idempotent_iff known).mp idempotent)
      rw [canonicalVariables_eq]
      exact canonicalValues_perm_self repeating _
    · exact rule.isSome_constant? fun value member => (List.mem_filter.mp member).2

end Proposed

namespace Graph

variable {graph next : Graph} {id : Nat} {operation : Operation} {replacement : Replacement}
  {value : Value}

/-! ### What is built for a canonical form -/

/-- An operation that is built for a proposal reads what stands for the operands of its shape. -/
theorem Builds.exists_built {shape : Shape} (builds : Builds graph (.fresh shape) value next) :
    ∃ values, next.definition value = some (shape.operation values) ∧
      List.Forall₂ (fun operand value => StandsFor graph next value operand)
        shape.operands values := by
  cases builds with
  | @fresh shape values placed places verified =>
    exact ⟨values, operation?_store_self placed (shape.operation values), places.standFor_store _⟩

/-- Nothing is proposed for what was built, unless it is a value that was there before. -/
theorem Builds.canonicalize_eq_none (builds : Builds graph replacement value next)
    (held : ∀ read ∈ operation.operands, graph.holds read = true)
    (proposed : operation.canonicalize graph.scope = some replacement)
    (new : ∀ named, replacement ≠ .existing named) :
    ∃ built, next.definition value = some built ∧ built.canonicalize next.scope = none := by
  cases replacement with
  | existing named => exact absurd rfl (new named)
  | constant bits =>
    cases builds
    refine ⟨bits.operation, operation?_store_self graph bits.operation, ?_⟩
    exact canonicalize_of_constant (Operation.kind_of_constant? bits.constant?_operation) _
  | fresh shape =>
    obtain ⟨values, defined, stand⟩ := builds.exists_built
    exact ⟨_, defined, builds.growth.extends.canonicalize_of_proposed held proposed stand⟩

/-- What is proposed as the canonical form of an operation of a graph that can arise evaluates to
what the operation evaluates to, whatever patterns its operands have, as long as they have the
right widths and constants are what they are. It has the type of the operation, and it is built if
the strictness asks for two operands at most. A value that is proposed is an operand; an operation
that is proposed reads the variables among the operands in order, and behind them at most one
constant. Nothing is proposed for the operation or constant that was built. -/
theorem canonical_form_equivalent (reachable : graph.Reachable)
    (strict : graph.strictness.minArity ≤ 2) (found : graph.operation? id = some operation)
    (proposed : operation.canonicalize graph.scope = some replacement) :
    (∀ valuation : Valuation,
      (∀ value ∈ operation.operands, ∀ type, graph.typeOf value = some type →
        (valuation value).width = type.width) →
      (∀ value ∈ operation.operands, ∀ bits, graph.scope.constant? value = some bits →
        valuation value = bits) →
      ∃ bits, operation.evaluate (operation.operands.map valuation) = .ok bits ∧
        bits.width = operation.type.width ∧ replacement.denote valuation = .ok bits) ∧
    replacement.type? graph.scope = some operation.type ∧
    (∃ value next, graph.materialize replacement = .succeed value next ∧
      next.typeOf value = some operation.type ∧
      (∀ shape, replacement = .fresh shape →
        ∃ values, next.definition value = some (shape.operation values) ∧
          List.Forall₂ (fun operand value => StandsFor graph next value operand)
            shape.operands values) ∧
      ((∀ named, replacement ≠ .existing named) →
        ∃ built, next.definition value = some built ∧ built.canonicalize next.scope = none)) ∧
    ((∃ value ∈ operation.operands, replacement = .existing value) ∨
      (∃ bits, replacement = .constant bits) ∨
      ∃ values tail, operation.Orders graph.scope values tail ∧ replacement =
        .fresh ⟨operation.kind, values.map .existing ++ tail, .none, operation.type⟩) := by
  have wellFormed := reachable.wellFormed
  have verified := wellFormed.verified id operation found
  have suits := canonicalize_suits graph.scope_typed verified proposed
  have held : ∀ read ∈ operation.operands, graph.holds read = true := fun read member =>
    wellFormed.holds_of_reads ⟨operation, found, member⟩
  obtain ⟨value, next, built, builds⟩ := exists_builds strict suits.type suits.fits
  refine ⟨fun valuation width constant => ?_, suits.type, ⟨value, next, built,
    builds.typeOf suits.type, ?_, builds.canonicalize_eq_none held proposed⟩,
    canonicalize_cases proposed⟩
  · exact canonicalize_denotes proposed graph.scope_typed verified width constant
  · rintro shape rfl
    exact builds.exists_built

/-- A disjunction whose operands are out of order: one is repeated, and two are constant. -/
def scrambled : Graph :=
  let first := (addInput {} "a" byte).2
  let second := (first.addInput "b" byte).2
  let one := (second.build (.constant ⟨byte.width, byte.positive, 1⟩)).state
  let two := (one.build (.constant ⟨byte.width, byte.positive, 2⟩)).state
  (two.build (.variadic .or [.result 1, .input 1, .input 0, .input 1, .result 0])).state

theorem reachable_scrambled : scrambled.Reachable :=
  ⟨{}, .step (.step (.step (.step (.step .start (.addInput _ _)) (.addInput _ _)) (.build _))
    (.build _)) (.build _)⟩

/-- Patterns of the values that it reads. -/
def scrambledPatterns : Valuation
  | .input index => ⟨byte.width, byte.positive, if index = 0 then 4 else 8⟩
  | .result id => ⟨byte.width, byte.positive, if id = 0 then 1 else 2⟩

/-- Its inputs are read in order, each once, and the constants are merged. -/
theorem canonical_form_equivalent_scrambled :
    let operation : Operation :=
      ⟨.or, [.result 1, .input 1, .input 0, .input 1, .result 0], .none, byte⟩
    let shape : Shape :=
      ⟨.or, [.existing (.input 0), .existing (.input 1), .pending ⟨8, by decide, 3⟩], .none, byte⟩
    scrambled.Reachable ∧ scrambled.operation? 2 = some operation ∧
      operation.canonicalize scrambled.scope = some (.fresh shape) ∧
      operation.evaluate (operation.operands.map scrambledPatterns) = .ok ⟨8, by decide, 15⟩ ∧
      shape.denote scrambledPatterns = .ok ⟨8, by decide, 15⟩ ∧
      ∃ value next, scrambled.materialize (.fresh shape) = .succeed value next ∧
        ∃ built, next.definition value = some built ∧
          built.canonicalize next.scope = none := by
  intro operation shape
  have found : scrambled.operation? 2 = some operation := by decide
  have proposed : operation.canonicalize scrambled.scope = some (.fresh shape) := by cbv
  have typed : ∀ value ∈ operation.operands, scrambled.typeOf value = some byte := by decide
  have widths : ∀ value ∈ operation.operands,
      (scrambledPatterns value).width = byte.width := by decide
  have constants : ∀ value ∈ operation.operands, ∀ bits ∈ scrambled.scope.constant? value,
      scrambledPatterns value = bits := by decide
  obtain ⟨denotes, _, ⟨value, next, built, _, _, stops⟩, _⟩ :=
    canonical_form_equivalent reachable_scrambled (by decide) found proposed
  obtain ⟨bits, computed, _, same⟩ := denotes scrambledPatterns
    (fun value member type isType => by
      cases (typed value member).symm.trans isType
      exact widths value member) constants
  have sum : operation.evaluate (operation.operands.map scrambledPatterns) =
      .ok ⟨8, by decide, 15⟩ := by
    decide
  exact ⟨reachable_scrambled, found, proposed, sum, same.trans (computed.symm.trans sum),
    value, next, built, stops fun _ same => by cases same⟩

end Graph

end BitGraph
