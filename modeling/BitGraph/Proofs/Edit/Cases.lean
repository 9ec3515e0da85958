/-
This file lists what each edit can come to. Most edits look before they change
anything: they make the change that they are asked for, or they are refused and
leave the graph as it was. Only building a proposal and replacing an operation
are made of smaller edits, so they can be refused after they have changed
something; even then they have done no more than store operations.
-/

import BitGraph.Proofs.Simplify.Rewriting

namespace BitGraph.Graph

/-! ### Edits that look first -/

theorem insert_cases (graph : Graph) (operation : Operation) :
    (∃ reason, graph.insert operation = .fail reason graph) ∨
      operation.verify graph.scope graph.strictness = .ok () ∧
        graph.insert operation = .succeed (.result graph.nodes.size) (graph.store operation) := by
  cases verified : operation.verify graph.scope graph.strictness with
  | error reason => exact .inl ⟨reason, by rw [Graph.insert, verified]⟩
  | ok _ => exact .inr ⟨rfl, insert_eq_succeed verified⟩

/-- Building from a blueprint is refused, or it stores one well-formed operation. -/
theorem build_cases (graph : Graph) (blueprint : Blueprint) :
    (∃ reason, graph.build blueprint = .fail reason graph) ∨
      ∃ operation, operation.verify graph.scope graph.strictness = .ok () ∧
        graph.build blueprint = .succeed (.result graph.nodes.size) (graph.store operation) := by
  cases built : blueprint.build graph.scope graph.strictness with
  | error reason => exact .inl ⟨reason, by rw [Graph.build, built]⟩
  | ok operation =>
    rw [Graph.build, built]
    exact (graph.insert_cases operation).imp_right fun stored => ⟨operation, stored⟩

theorem addOutput_cases (graph : Graph) (name : String) (value : Value) :
    graph.addOutput name value = .fail (.unknownValue value) graph ∨
      graph.holds value = true ∧
        graph.addOutput name value = .succeed () (graph.withOutput name value) := by
  by_cases held : graph.holds value = true
  · exact .inr ⟨held, addOutput_of_holds held name⟩
  · exact .inl (if_neg held)

/-- Moving uses is refused, has nothing to do, or redirects a value to another one of its type. -/
theorem replaceUses_cases (graph : Graph) (source target : Value) :
    (∃ reason, graph.replaceUses source target = .fail reason graph) ∨
      source = target ∧ graph.replaceUses source target = .succeed 0 graph ∨
      ∃ type, source ≠ target ∧ graph.typeOf source = some type ∧
        graph.typeOf target = some type ∧ graph.replaceUses source target =
          .succeed (graph.uses source).length (graph.redirect source target) := by
  by_cases same : source = target
  · exact .inr (.inl ⟨same, if_pos same⟩)
  cases typedSource : graph.typeOf source with
  | none => exact .inl ⟨.unknownValue source, by rw [replaceUses, if_neg same, typedSource]⟩
  | some type =>
    cases typedTarget : graph.typeOf target with
    | none =>
      exact .inl ⟨.unknownValue target, by rw [replaceUses, if_neg same, typedSource, typedTarget]⟩
    | some other =>
      by_cases agree : type = other
      · subst agree
        have moved := replaceUses_eq_succeed same typedSource typedTarget
        exact .inr (.inr ⟨type, same, rfl, rfl, moved⟩)
      · refine .inl ⟨.replacementType source target, ?_⟩
        simp only [replaceUses, if_neg same, typedSource, typedTarget, if_neg agree]

/-! ### Replacing -/

variable {graph next : Graph} {id : Nat} {replacement : Replacement} {value : Value}

/-- What is built exists. -/
theorem Builds.exists_type (builds : Builds graph replacement value next) :
    ∃ type, next.typeOf value = some type := by
  cases builds with
  | existing held => exact (graph.holds_iff value).mp held
  | constant bits => exact ⟨_, typeOf_result (operation?_store_self graph bits.operation)⟩
  | fresh places verified => exact ⟨_, typeOf_result (operation?_store_self _ _)⟩

/-- What is built is an operation that was there only if that is proposed; then nothing is
stored. -/
theorem Builds.eq_existing (builds : Builds graph replacement (.result id) next)
    (live : graph.isLive id = true) : replacement = .existing (.result id) ∧ next = graph := by
  by_cases proposed : replacement = .existing (.result id)
  · subst proposed
    cases builds with
    | existing _ => exact ⟨rfl, rfl⟩
  · exact absurd rfl (builds.apart live proposed)

/-- What replacing an operation can come to. -/
inductive Replaces (graph : Graph) (id : Nat) (replacement : Replacement) :
    Attempt Graph Value → Prop where
  /-- There is no such operation. -/
  | absent (dead : graph.isLive id = false) :
    Replaces graph id replacement (.fail (.unknownValue (.result id)) graph)
  /-- The proposal cannot be built; the constants that were built for it stay. -/
  | unbuilt {reason : GraphError} {operands : List Operand} {values : List Value} {next : Graph}
    (live : graph.isLive id = true) (places : Places operands graph values next) :
    Replaces graph id replacement (.fail reason next)
  /-- The operation is proposed for itself. -/
  | itself (live : graph.isLive id = true) (proposed : replacement = .existing (.result id)) :
    Replaces graph id replacement (.succeed (.result id) graph)
  /-- What is built has another type than the operation, and stays. -/
  | mistyped {operation : Operation} {value : Value} {next : Graph} {type : BitType}
    (found : graph.operation? id = some operation) (builds : Builds graph replacement value next)
    (typed : next.typeOf value = some type) (differs : operation.type ≠ type) :
    Replaces graph id replacement (.fail (.replacementType (.result id) value) next)
  /-- What is built supplants the operation. -/
  | supplanted {operation : Operation} {value : Value} {next : Graph}
    (found : graph.operation? id = some operation) (builds : Builds graph replacement value next)
    (apart : Value.result id ≠ value) (typed : next.typeOf value = some operation.type) :
    Replaces graph id replacement (.succeed value (next.supplant id operation value))

theorem replaces (wellFormed : graph.WellFormed) (id : Nat) (replacement : Replacement) :
    Replaces graph id replacement (graph.replace id replacement) := by
  by_cases live : graph.isLive id = true
  case neg =>
    rw [Graph.replace, if_neg live]
    exact .absent (Bool.eq_false_of_not_eq_true live)
  rcases materialize_cases graph replacement with
    ⟨value, next, built, builds⟩ | ⟨reason, operands, values, next, failed, places⟩
  case inr =>
    rw [Graph.replace, if_pos live, failed, Attempt.fail_andThen]
    exact .unbuilt live places
  by_cases same : value = .result id
  · subst same
    obtain ⟨proposed, rfl⟩ := builds.eq_existing live
    rw [Graph.replace, if_pos live, built, Attempt.succeed_andThen, if_pos rfl]
    exact .itself live proposed
  obtain ⟨operation, found⟩ := (graph.isLive_iff id).mp live
  obtain ⟨type, typed⟩ := builds.exists_type
  by_cases agree : operation.type = type
  · subst agree
    rw [replace_of_typeOf wellFormed found built builds (Ne.symm same) typed]
    exact .supplanted found builds (Ne.symm same) typed
  · have after := builds.growth.extends.operation? id operation found
    have refused : next.replaceUses (.result id) value =
        .fail (.replacementType (.result id) value) next := by
      simp only [replaceUses, if_neg (Ne.symm same), typeOf_result after, typed, if_neg agree]
    rw [Graph.replace, if_pos live, built, Attempt.succeed_andThen, if_neg same, refused,
      Attempt.fail_andThen]
    exact .mistyped found builds typed agree

end BitGraph.Graph
