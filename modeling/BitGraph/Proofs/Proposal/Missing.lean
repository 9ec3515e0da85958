/-
This file treats results that say no more than that there is no operation of some
number. No operation that exists gives such a result. A proposal can: it may
mention a number that is given out only while it is built. Its result before
that and its result afterwards then differ, but they do so only where the first
one says what is missing.
-/

import BitGraph.Proofs.Proposal.Suitable

namespace BitGraph

/-- The result says no more than that there is no such operation. -/
def Missing (result : Except GraphError Bits) : Prop :=
  ∃ id, result = .error (.unknownValue (.result id))

namespace Operation

/-- The result of an operation says that an operation is missing only if an operand says so. -/
theorem combine_not_missing (operation : Operation) {results : List (Except GraphError Bits)}
    (each : ∀ result ∈ results, ¬ Missing result) : ¬ Missing (operation.combine results) := by
  unfold combine
  cases all : results.mapM id with
  | error reason =>
    obtain ⟨result, member, failed⟩ := exists_of_mapM_eq_error all
    rintro ⟨number, same⟩
    cases same
    exact each result member ⟨number, failed⟩
  | ok arguments => exact fun ⟨_, failed⟩ => ofComputing_of_evaluate failed

end Operation

/-- Two results agree, unless the first one only says what is missing. -/
def AgreeUnlessMissing (first second : Except GraphError Bits) : Prop :=
  first = second ∨ Missing first

theorem AgreeUnlessMissing.refines {first second : Except GraphError Bits}
    (agree : AgreeUnlessMissing first second) : Refines first second := by
  rintro bits rfl
  rcases agree with same | ⟨_, ⟨⟩⟩
  exact same.symm

/-- The first failure among results decides, so a failure that stays is not overtaken by one that
goes away. -/
theorem mapM_agreeUnlessMissing {before after : List (Except GraphError Bits)}
    (each : List.Forall₂ AgreeUnlessMissing before after) :
    before.mapM id = after.mapM id ∨ ∃ number, before.mapM id =
      .error (.unknownValue (.result number)) := by
  induction each with
  | nil => exact .inl rfl
  | @cons first second before after head _ inductionHypothesis =>
    rw [List.mapM_cons, List.mapM_cons]
    rcases head with rfl | ⟨number, rfl⟩
    · cases first with
      | error reason => exact .inl rfl
      | ok bits =>
        rcases inductionHypothesis with same | ⟨number, failed⟩
        · exact .inl (by rw [same])
        · exact .inr ⟨number, by rw [failed]; rfl⟩
    · exact .inr ⟨number, rfl⟩

theorem Operation.combine_agreeUnlessMissing (operation : Operation)
    {before after : List (Except GraphError Bits)}
    (each : List.Forall₂ AgreeUnlessMissing before after) :
    AgreeUnlessMissing (operation.combine before) (operation.combine after) := by
  unfold combine
  rcases mapM_agreeUnlessMissing each with same | ⟨number, failed⟩
  · exact .inl (by rw [same])
  · exact .inr ⟨number, by rw [failed]; rfl⟩

theorem Replacement.outcome_agreeUnlessMissing (replacement : Replacement)
    {first second : Outcomes} (each : ∀ value, AgreeUnlessMissing (first value) (second value)) :
    AgreeUnlessMissing (replacement.outcome first) (replacement.outcome second) := by
  cases replacement with
  | existing value => exact each value
  | constant bits => exact .inl rfl
  | fresh shape =>
    refine Operation.combine_agreeUnlessMissing _ ?_
    rw [List.forall₂_map_left_iff, List.forall₂_map_right_iff, List.forall₂_same]
    intro operand _
    cases operand with
    | existing value => exact each value
    | pending bits => exact .inl rfl

end BitGraph
