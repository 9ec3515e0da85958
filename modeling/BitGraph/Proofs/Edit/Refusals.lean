/-
This file proves that edits which are refused do no damage. Those that look
first leave the graph exactly as it was. Building a proposal and replacing an
operation may leave something behind, but only behind: live operations with new
numbers, which nothing that was there before reads. What was there stays as it
was, and the outputs keep their values.
-/

import BitGraph.Proofs.Edit.Circles

namespace BitGraph.Graph

variable {graph next : Graph} {id : Nat} {value : Value} {reason : GraphError}

/-! ### Graphs with operations stored behind them -/

/-- The second graph is the first one with live operations stored behind it. Use lists only get
longer, by places in these operations. -/
structure Appended (before after : Graph) : Prop extends Frame before after where
  outputs : after.outputs = before.outputs
  size_le : before.nodes.size ≤ after.nodes.size
  old : ∀ id, id < before.nodes.size →
    after.stored? id = before.stored? id ∧ after.isLive id = before.isLive id
  fresh : ∀ id, before.nodes.size ≤ id → id < after.nodes.size → after.isLive id = true
  uses : ∀ value, ∃ added, after.uses value = before.uses value ++ added ∧
    ∀ use ∈ added, ∃ id index, use = .operand id index ∧
      before.nodes.size ≤ id ∧ id < after.nodes.size

theorem Appended.refl (graph : Graph) : Appended graph graph where
  toFrame := .refl graph
  outputs := rfl
  size_le := Nat.le_refl _
  old _ _ := ⟨rfl, rfl⟩
  fresh _ new below := absurd below (Nat.not_lt.mpr new)
  uses _ := ⟨[], (List.append_nil _).symm, nofun⟩

theorem Appended.trans {first second third : Graph} (left : Appended first second)
    (right : Appended second third) : Appended first third where
  toFrame := left.toFrame.trans right.toFrame
  outputs := right.outputs.trans left.outputs
  size_le := left.size_le.trans right.size_le
  old id below := by
    obtain ⟨stored, live⟩ := left.old id below
    obtain ⟨stored', live'⟩ := right.old id (below.trans_le left.size_le)
    exact ⟨stored'.trans stored, live'.trans live⟩
  fresh id new below := by
    by_cases early : id < second.nodes.size
    · exact (right.old id early).2.trans (left.fresh id new early)
    · exact right.fresh id (Nat.le_of_not_lt early) below
  uses value := by
    obtain ⟨added, same, each⟩ := left.uses value
    obtain ⟨later, same', each'⟩ := right.uses value
    refine ⟨added ++ later, by rw [same', same, List.append_assoc], fun use member => ?_⟩
    rcases List.mem_append.mp member with inFirst | inLater
    · obtain ⟨id, index, here, new, below⟩ := each use inFirst
      exact ⟨id, index, here, new, below.trans_le right.size_le⟩
    · obtain ⟨id, index, here, new, below⟩ := each' use inLater
      exact ⟨id, index, here, left.size_le.trans new, below⟩

theorem stored?_changeUses (graph : Graph) (value : Value) (change : List Use → List Use)
    (id : Nat) : (graph.changeUses value change).stored? id = graph.stored? id := by
  cases value with
  | input index => rfl
  | result changed =>
    unfold stored? changeUses
    by_cases same : id = changed
    · subst same
      rw [Arena.get?_modify_self, Option.map_map]
      rfl
    · rw [Arena.get?_modify_other _ _ _ _ same]

theorem stored?_store (graph : Graph) (operation : Operation) (below : id < graph.nodes.size) :
    (graph.store operation).stored? id = graph.stored? id := by
  refine (foldl_changeUses_same (fun graph => graph.stored? id)
    (fun graph value change => graph.stored?_changeUses value change id)
    (fun use uses => uses ++ [use]) _ _).trans ?_
  simp only [stored?]
  rw [Arena.get?_push_other _ _ _ (Nat.ne_of_lt below)]

theorem isLive_store (graph : Graph) (operation : Operation) (below : id < graph.nodes.size) :
    (graph.store operation).isLive id = graph.isLive id := by
  rw [Bool.eq_iff_iff, isLive_iff, isLive_iff, operation?_store, if_neg (Nat.ne_of_lt below)]

theorem appended_store {operation : Operation}
    (verified : operation.verify graph.scope graph.strictness = .ok ()) :
    Appended graph (graph.store operation) where
  toFrame := (graph.extends_store operation).toFrame
  outputs := (graph.extends_store operation).outputs
  size_le := (size_store graph operation).symm ▸ Nat.le_succ _
  old id below := ⟨stored?_store graph operation below, isLive_store graph operation below⟩
  fresh id new below := by
    rw [size_store] at below
    have last : id = graph.nodes.size := Nat.le_antisymm (Nat.lt_succ_iff.mp below) new
    rw [isLive_iff, last, operation?_store_self]
    exact ⟨operation, rfl⟩
  uses value := by
    refine ⟨_, uses_store verified value, fun use member => ?_⟩
    obtain ⟨index, _, rfl⟩ := (mem_filter_readings_iff _ _ _ _).mp member
    exact ⟨_, index, rfl, Nat.le_refl _, (size_store graph operation).symm ▸ Nat.lt_succ_self _⟩

theorem Growth.appended (growth : graph.Growth next) : Appended graph next := by
  induction growth with
  | refl => exact .refl graph
  | tail _ adds inductionHypothesis =>
    obtain ⟨operation, verified, rfl⟩ := adds
    exact inductionHypothesis.trans (appended_store verified)

/-! ### What storing operations keeps -/

/-- Operations that were stored behind a graph do not show in what it evaluates to. -/
theorem Growth.evaluate (growth : graph.Growth next) (wellFormed : graph.WellFormed)
    (acyclic : graph.Acyclic) (assignment : Assignment) :
    next.evaluate assignment = graph.evaluate assignment := by
  obtain ⟨results, before, after⟩ := outcomes_of_extends growth.extends wellFormed
    (growth.changes.wellFormed wellFormed) (growth.acyclic wellFormed acyclic) assignment
  rw [evaluate_eq_outcomes, evaluate_eq_outcomes, before, after]

/-- Constants read nothing, so placing operands changes no use list. -/
theorem Places.uses {operands : List Operand} {values : List Value}
    (places : Places operands graph values next) (value : Value) :
    next.uses value = graph.uses value := by
  induction places with
  | nil graph => rfl
  | existing named _ inductionHypothesis => exact inductionHypothesis
  | @pending rest graph next values bits _ inductionHypothesis =>
    rw [inductionHypothesis, uses_store (bits.verify_operation _ _)]
    exact List.append_nil _

/-- A number that was not given out names nothing that is read. -/
theorem uses_of_size_le (unused : graph.nodes.size ≤ id) : graph.uses (.result id) = [] := by
  have unknown : graph.nodes.get? id = none := by
    rw [← Option.not_isSome_iff_eq_none, Arena.isSome_get?_iff]
    exact Nat.not_lt.mpr unused
  simp [uses, unknown]

/-! ### Refusals -/

/-- An edit that is refused before it has changed anything leaves the graph as it was. -/
theorem state_eq_of_refused {Result : Type} {attempt : Attempt Graph Result}
    (cases : (∃ reason, attempt = .fail reason graph) ∨
      ∃ result next, attempt = .succeed result next)
    (refused : attempt.result = .error reason) : attempt.state = graph := by
  rcases cases with ⟨_, rfl⟩ | ⟨_, _, rfl⟩
  · rfl
  · cases refused

theorem addOutput_refused {name : String}
    (refused : (graph.addOutput name value).result = .error reason) :
    (graph.addOutput name value).state = graph :=
  state_eq_of_refused ((graph.addOutput_cases name value).imp
    (fun same => ⟨_, same⟩) fun ⟨_, same⟩ => ⟨_, _, same⟩) refused

theorem insert_refused {operation : Operation}
    (refused : (graph.insert operation).result = .error reason) :
    (graph.insert operation).state = graph :=
  state_eq_of_refused ((graph.insert_cases operation).imp_right
    fun ⟨_, same⟩ => ⟨_, _, same⟩) refused

theorem build_refused {blueprint : Blueprint}
    (refused : (graph.build blueprint).result = .error reason) :
    (graph.build blueprint).state = graph :=
  state_eq_of_refused ((graph.build_cases blueprint).imp_right
    fun ⟨_, _, same⟩ => ⟨_, _, same⟩) refused

theorem erase_refused (refused : (graph.erase id).result = .error reason) :
    (graph.erase id).state = graph :=
  state_eq_of_refused ((graph.erase_cases id).imp_right
    fun ⟨_, _, _, same⟩ => ⟨_, _, same⟩) refused

theorem replaceUses_refused {source target : Value}
    (refused : (graph.replaceUses source target).result = .error reason) :
    (graph.replaceUses source target).state = graph := by
  refine state_eq_of_refused ((graph.replaceUses_cases source target).imp_right ?_) refused
  rintro (⟨_, same⟩ | ⟨_, _, _, _, same⟩)
  · exact ⟨_, _, same⟩
  · exact ⟨_, _, same⟩

/-- A proposal that cannot be built leaves at most constants behind, which nothing reads. -/
theorem materialize_refused {replacement : Replacement}
    (refused : (graph.materialize replacement).result = .error reason) :
    ∃ operands values, Places operands graph values (graph.materialize replacement).state := by
  rcases materialize_cases graph replacement with
    ⟨_, _, same, _⟩ | ⟨_, operands, values, _, same, places⟩
  · rw [same] at refused
    cases refused
  · rw [same]
    exact ⟨operands, values, places⟩

/-- A replacement that is refused has at most stored something. -/
theorem replace_refused (wellFormed : graph.WellFormed) {replacement : Replacement}
    (refused : (graph.replace id replacement).result = .error reason) :
    graph.Growth (graph.replace id replacement).state := by
  generalize outcome : graph.replace id replacement = attempt at refused
  have replaces : Replaces graph id replacement attempt :=
    outcome ▸ replaces wellFormed id replacement
  cases replaces with
  | absent _ => exact .refl
  | unbuilt _ places => exact places.growth
  | itself _ _ => cases refused
  | mistyped _ builds _ _ => exact builds.growth
  | supplanted _ _ _ _ => cases refused

/-- Declaring an output, building, storing, erasing and moving uses leave a graph exactly as it was
when they are refused. Building a proposal and replacing an operation leave it with live operations
stored behind it; the operation that was to be replaced keeps its place, and the outputs keep
their values. -/
theorem refusals_do_no_damage (reachable : graph.Reachable) :
    (∀ name value reason, (graph.addOutput name value).result = .error reason →
      (graph.addOutput name value).state = graph) ∧
    (∀ blueprint reason, (graph.build blueprint).result = .error reason →
      (graph.build blueprint).state = graph) ∧
    (∀ operation reason, (graph.insert operation).result = .error reason →
      (graph.insert operation).state = graph) ∧
    (∀ id reason, (graph.erase id).result = .error reason → (graph.erase id).state = graph) ∧
    (∀ source target reason, (graph.replaceUses source target).result = .error reason →
      (graph.replaceUses source target).state = graph) ∧
    (∀ replacement reason, (graph.materialize replacement).result = .error reason →
      let after := (graph.materialize replacement).state
      graph.Appended after ∧
      (∀ id, graph.nodes.size ≤ id → id < after.nodes.size →
        (∃ bits : Bits, after.operation? id = some bits.operation) ∧
          after.uses (.result id) = []) ∧
      (graph.Acyclic → ∀ assignment, after.evaluate assignment = graph.evaluate assignment)) ∧
    (∀ id replacement reason, (graph.replace id replacement).result = .error reason →
      let after := (graph.replace id replacement).state
      graph.Appended after ∧
      (∀ operation, graph.operation? id = some operation →
        after.operation? id = some operation ∧
          graph.uses (.result id) <+: after.uses (.result id)) ∧
      (graph.Acyclic → ∀ assignment, after.evaluate assignment = graph.evaluate assignment)) := by
  have wellFormed := reachable.wellFormed
  refine ⟨fun _ _ _ => addOutput_refused, fun _ _ => build_refused, fun _ _ => insert_refused,
    fun _ _ => erase_refused, fun _ _ _ => replaceUses_refused, ?_, ?_⟩
  · intro replacement reason refused after
    obtain ⟨operands, values, places⟩ := materialize_refused refused
    have appended := places.growth.appended
    refine ⟨appended, fun id new below => ⟨?_, ?_⟩, places.growth.evaluate wellFormed⟩
    · obtain ⟨operation, found⟩ := (after.isLive_iff id).mp (appended.fresh id new below)
      rcases places.operation?_cases found with earlier | ⟨_, bits, rfl⟩
      · exact absurd (lt_size_of_operation? earlier) (Nat.not_lt.mpr new)
      · exact ⟨bits, found⟩
    · rw [places.uses, uses_of_size_le new]
  · intro id replacement reason refused after
    have growth := replace_refused wellFormed refused
    refine ⟨growth.appended, fun operation found => ⟨?_, ?_⟩, growth.evaluate wellFormed⟩
    · exact growth.extends.operation? id operation found
    · obtain ⟨added, same, _⟩ := growth.appended.uses (.result id)
      exact ⟨added, same.symm⟩

/-- The lowest bit of the input cannot stand in the place of the quotient. It is built, stays
behind, and reads the input. -/
theorem refusals_maskedQuotient :
    let bit : Replacement :=
      .fresh ⟨.extract, [.existing (.input 0)], .extract 0, ⟨1, by decide⟩⟩
    let after := (maskedQuotient.replace 1 bit).state
    maskedQuotient.Reachable ∧ maskedQuotient.Acyclic ∧
      (maskedQuotient.replace 1 bit).result = .error (.replacementType (.result 1) (.result 3)) ∧
      maskedQuotient.uses (.input 0) = [.operand 1 0] ∧
      after.uses (.input 0) = [.operand 1 0, .operand 3 0] ∧
      ∀ assignment, after.evaluate assignment = maskedQuotient.evaluate assignment := by
  intro bit after
  have refused : (maskedQuotient.replace 1 bit).result =
      .error (.replacementType (.result 1) (.result 3)) := by rfl
  have undamaged := (refusals_do_no_damage reachable_maskedQuotient).2.2.2.2.2.2 1 bit _ refused
  exact ⟨reachable_maskedQuotient, acyclic_maskedQuotient, refused, by decide, by decide,
    undamaged.2.2 acyclic_maskedQuotient⟩

end BitGraph.Graph
