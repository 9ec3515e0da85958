/-
This file says what the operands of a well-formed operation give under results
that respect a scope: each has a result of its type. For sums, products and
bitwise operations this means that either all operands have patterns of the
result width, and the operation computes their total, or one of them fails and
so does the operation. The constants among the operands are patterns of that
width too, whatever the results.
-/

import BitGraph.Folding
import BitGraph.Proofs.Proposal.Suitable

namespace BitGraph

variable {scope : Scope} {operation : Operation} {strictness : Strictness}

/-! ### Results of operands -/

theorem Outcomes.Respects.forall₂_admits {outcomes : Outcomes} (respects : outcomes.Respects scope)
    {values : List Value} {types : List BitType}
    (each : List.Forall₂ (fun value type => scope.typeOf value = some type) values types) :
    List.Forall₂ (fun result type => BitType.Admits type result) (values.map outcomes) types :=
  List.forall₂_map_left_iff.mpr (each.imp fun value type typed => respects.admits value type typed)

theorem Outcomes.Respects.admits_operand {outcomes : Outcomes}
    (respects : outcomes.Respects scope) {operand : Operand} {type : BitType}
    (typed : operand.type? scope = some type) : type.Admits (operand.outcome outcomes) := by
  cases operand with
  | existing value => exact respects.admits value type typed
  | pending bits =>
    cases typed
    exact BitType.admits_ok rfl

/-- To turn the failures of a well-formed operation into anything, it is enough to look at
operands that all have patterns. -/
theorem refines_of_patterns {outcomes : Outcomes} (respects : outcomes.Respects scope)
    (verified : operation.verify scope strictness = .ok ()) {result : Except GraphError Bits}
    (patterns : ∀ types arguments, operation.Accepts strictness types →
      List.Forall₂ (fun value type => scope.typeOf value = some type) operation.operands types →
      List.Forall₂ (fun bits type => bits.width = type.width) arguments types →
      operation.operands.map outcomes = arguments.map .ok →
      Refines (operation.evaluate arguments) result) :
    Refines (operation.combine (operation.operands.map outcomes)) result := by
  obtain ⟨types, each, accepts⟩ := (operation.verify_eq_ok_iff scope strictness).mp verified
  rcases operation.combine_cases (respects.forall₂_admits each) with
    ⟨arguments, same, typed, computed⟩ | ⟨_, failed⟩
  · rw [computed]
    exact patterns types arguments accepts each typed same
  · intro bits computed
    rw [failed] at computed
    cases computed

/-! ### Constants -/

/-- A constant is a pattern of the type of its value. -/
theorem Scope.typeOf_of_constant? (typed : scope.Typed) {value : Value} {bits : Bits}
    (constant : scope.constant? value = some bits) :
    scope.typeOf value = some (.ofBits bits) := by
  obtain ⟨definition, defined, known⟩ := Option.bind_eq_some_iff.mp constant
  rw [typed value definition defined]
  unfold Operation.constant? at known
  split at known
  case h_1 magnitude _ _ =>
    cases built : Bits.ofMagnitude definition.type.width magnitude with
    | ok found =>
      rw [built] at known
      cases known
      exact congrArg some (BitType.eq_of_width (Bits.ofMagnitude_eq_ok_iff.mp built).1.symm)
    | error reason =>
      rw [built] at known
      cases known
  case h_2 => cases known

/-! ### Operands of one type -/

/-- An operation whose kind passes on the type of its operands has operands of its own type. -/
theorem typeOf_operand (same : operation.kind.signature.result = .sameAsOperands)
    (verified : operation.verify scope strictness = .ok ()) {value : Value}
    (member : value ∈ operation.operands) : scope.typeOf value = some operation.type := by
  obtain ⟨types, each, accepts⟩ := (operation.verify_eq_ok_iff scope strictness).mp verified
  obtain ⟨type, isType, typed⟩ := exists_of_forall₂ each member
  have widths := accepts.widths
  simp only [Operation.WidthsFit, same] at widths
  rw [typed, widths type isType]

section Algebra

variable {algebra : Algebra} (known : operation.kind.algebra? = some algebra)

include known in
theorem typeOf_combined (verified : operation.verify scope strictness = .ok ()) {value : Value}
    (member : value ∈ operation.operands) : scope.typeOf value = some operation.type :=
  typeOf_operand (congrArg Signature.result (Kind.signature_of_algebra? known)) verified member

include known in
/-- The constants among the operands are bit vectors of the result width. -/
theorem exists_constant_vectors (typed : scope.Typed)
    (verified : operation.verify scope strictness = .ok ()) :
    ∃ vectors : List (BitVec operation.type.width),
      operation.operands.filterMap scope.constant? =
        vectors.map (Bits.mk operation.type.width operation.type.positive) := by
  refine exists_vectors operation.type.positive fun bits member => ?_
  obtain ⟨value, inOperands, constant⟩ := List.mem_filterMap.mp member
  have same := Scope.typeOf_of_constant? typed constant
  rw [typeOf_combined known verified inOperands, Option.some_inj] at same
  rw [same]
  rfl

include known in
/-- Either all operands have patterns of the result width, or one of them fails and the
operation with it. -/
theorem exists_vector {outcomes : Outcomes} (respects : outcomes.Respects scope)
    (verified : operation.verify scope strictness = .ok ()) :
    (∃ vector : Value → BitVec operation.type.width, ∀ value ∈ operation.operands,
      outcomes value = .ok ⟨operation.type.width, operation.type.positive, vector value⟩) ∨
    (∃ value ∈ operation.operands, outcomes value = .error (.bits .divisionByZero)) ∧
      operation.combine (operation.operands.map outcomes) = .error (.bits .divisionByZero) := by
  obtain ⟨types, each, _⟩ := (operation.verify_eq_ok_iff scope strictness).mp verified
  rcases operation.combine_cases (respects.forall₂_admits each) with
    ⟨arguments, same, _, _⟩ | ⟨member, failed⟩
  · have found : ∀ value, ∃ vector : BitVec operation.type.width, value ∈ operation.operands →
        outcomes value = .ok ⟨operation.type.width, operation.type.positive, vector⟩ := by
      intro value
      by_cases member : value ∈ operation.operands
      · have admits := respects.admits value _ (typeOf_combined known verified member)
        have isOk : outcomes value ∈ arguments.map .ok := same ▸ List.mem_map_of_mem member
        obtain ⟨⟨width, positive, vector⟩, _, computed⟩ := List.mem_map.mp isOk
        rw [← computed] at admits ⊢
        have sameWidth : width = operation.type.width := admits.width
        subst sameWidth
        exact ⟨vector, fun _ => rfl⟩
      · exact ⟨0, fun inside => absurd inside member⟩
    exact .inl ⟨fun value => (found value).choose, fun value => (found value).choose_spec⟩
  · obtain ⟨value, inOperands, failedHere⟩ := List.mem_map.mp member
    exact .inr ⟨⟨value, inOperands, failedHere⟩, failed⟩

include known in
/-- Combining results that are patterns of the result width gives their total. -/
theorem combine_vectors (laws : algebra.Laws) {vectors : List (BitVec operation.type.width)}
    (nonempty : vectors ≠ []) :
    operation.combine (vectors.map fun vector =>
      .ok ⟨operation.type.width, operation.type.positive, vector⟩) =
        .ok ⟨operation.type.width, operation.type.positive, laws.total vectors⟩ := by
  rw [← Operation.evaluate_vectors known laws nonempty, ← Operation.combine_map_ok, List.map_map]
  rfl

/-- What a sum, a product or a bitwise operation makes of results depends on its kind alone. -/
theorem combine_of_kind {first second : Operation} (known : first.kind.algebra? = some algebra)
    (same : second.kind = first.kind) (results : List (Except GraphError Bits)) :
    first.combine results = second.combine results := by
  have evaluate : first.evaluate = second.evaluate := by
    funext arguments
    rw [Operation.evaluate_of_algebra? known, Operation.evaluate_of_algebra? (same ▸ known), same]
  rw [Operation.combine, Operation.combine, evaluate]

include known in
/-- An operation on a single result of its type has that result. -/
theorem combine_single {result : Except GraphError Bits} (admits : operation.type.Admits result) :
    operation.combine [result] = result := by
  obtain ⟨laws⟩ := Kind.nonempty_laws known
  rcases admits with ⟨⟨width, positive, vector⟩, rfl, same⟩ | rfl
  · have sameWidth : width = operation.type.width := same
    subst sameWidth
    refine (combine_vectors known laws (List.cons_ne_nil vector [])).trans ?_
    rw [laws.total_singleton]
  · rfl

end Algebra

/-- An operation fails if one of its operands does. -/
theorem combine_failure (operation : Operation) (type : BitType)
    {results : List (Except GraphError Bits)} (admits : ∀ result ∈ results, type.Admits result)
    (failed : .error (.bits .divisionByZero) ∈ results) :
    operation.combine results = .error (.bits .divisionByZero) := by
  have each : List.Forall₂ (fun result type => BitType.Admits type result) results
      (results.map fun _ => type) :=
    List.forall₂_map_right_iff.mpr (List.forall₂_same.mpr admits)
  rcases operation.combine_cases each with ⟨arguments, rfl, _⟩ | ⟨_, computed⟩
  · obtain ⟨bits, _, impossible⟩ := List.mem_map.mp failed
    cases impossible
  · exact computed

/-- Two operands or more of the type of a sum, a product or a bitwise operation fit together. -/
theorem Shape.fits_of_algebra {shape : Shape} {algebra : Algebra}
    (known : shape.kind.algebra? = some algebra) (attr : shape.attr = .none)
    (several : 2 ≤ shape.operands.length)
    (each : ∀ operand ∈ shape.operands, operand.type? scope = some shape.type) :
    shape.Fits scope := by
  have signature := Kind.signature_of_algebra? known
  refine ⟨shape.operands.map fun _ => shape.type, ?_, fun strictness strict => ?_⟩
  · rw [List.forall₂_map_right_iff, List.forall₂_same]
    exact each
  · refine ⟨?_, ?_, ?_⟩
    · simp only [signature, attr]
      rfl
    · simp only [Kind.arity, Signature.arity, signature, Arity.accepts, List.length_map,
        decide_eq_true_iff]
      exact strict.trans several
    · simp only [Operation.WidthsFit, signature, List.mem_map]
      rintro type ⟨_, _, same⟩
      exact same.symm

/-- Constants are all that a scope knows the patterns of. -/
theorem filterMap_filter_constants (scope : Scope) (values : List Value) :
    (values.filter fun value => (scope.constant? value).isSome).filterMap scope.constant? =
      values.filterMap scope.constant? := by
  rw [List.filterMap_filter]
  refine List.filterMap_congr fun value _ => ?_
  cases scope.constant? value <;> rfl

/-- The constants among values are what the results say of them. -/
theorem filterMap_constant? {outcomes : Outcomes} (respects : outcomes.Respects scope)
    {type : BitType} {vector : Value → BitVec type.width} {values : List Value}
    (each : ∀ value ∈ values, outcomes value = .ok ⟨type.width, type.positive, vector value⟩) :
    values.filterMap scope.constant? =
      ((values.filter fun value => (scope.constant? value).isSome).map vector).map
        (Bits.mk type.width type.positive) := by
  induction values with
  | nil => rfl
  | cons value rest inductionHypothesis =>
    have here := each value List.mem_cons_self
    have others :=
      inductionHypothesis fun other member => each other (List.mem_cons_of_mem _ member)
    cases constant : scope.constant? value with
    | none => simpa [List.filterMap_cons, constant] using others
    | some bits =>
      rw [respects.constant value bits constant] at here
      cases here
      simpa [List.filterMap_cons, constant] using others

end BitGraph
