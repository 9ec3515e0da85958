/-
This file says what building a proposal does. The constants that are pending are
stored in order, which always goes through, and then the operation itself is,
unless it is refused. What was there before stays, and the value handed back
stands for the proposal: it is the value that the proposal names, a constant with
its pattern, or an operation on the operands placed for it.
-/

import BitGraph.Proofs.Graph.Supplanting
import BitGraph.Proofs.Proposal.Suitable

namespace BitGraph

/-- The constant operation of a pattern. -/
def Bits.operation (bits : Bits) : Operation :=
  ⟨.constant, [], .constant bits.magnitude, .ofBits bits⟩

theorem Bits.constant?_operation (bits : Bits) : bits.operation.constant? = some bits :=
  congrArg Except.toOption (ofMagnitude_eq_ok_iff.mpr ⟨rfl, rfl⟩)

theorem Bits.verify_operation (bits : Bits) (scope : Scope) (strictness : Strictness) :
    bits.operation.verify scope strictness = .ok () := by
  rw [Operation.verify_eq_ok_iff]
  refine ⟨[], .nil, rfl, rfl, fun magnitude carried => ?_⟩
  cases carried
  rw [fits_iff, Nat.one_shiftLeft]
  exact bits.value.isLt

namespace Graph

variable {graph next : Graph}

theorem build_constant (graph : Graph) (bits : Bits) :
    graph.build (.constant bits) =
      .succeed (.result graph.nodes.size) (graph.store bits.operation) := by
  have built : (Blueprint.constant bits).build graph.scope graph.strictness =
      .ok bits.operation := by
    have verified := bits.verify_operation graph.scope graph.strictness
    simp only [Bits.operation] at verified
    simp only [Blueprint.build, Operation.build, bind, Except.bind, verified]
    rfl
  rw [Graph.build, built]
  exact insert_eq_succeed (bits.verify_operation _ _)

/-! ### Placing operands -/

/-- Operands are turned into values by storing the constants that are pending. -/
inductive Places : List Operand → Graph → List Value → Graph → Prop where
  | nil (graph : Graph) : Places [] graph [] graph
  | existing {rest : List Operand} {graph next : Graph} {values : List Value} (value : Value)
    (places : Places rest graph values next) :
    Places (.existing value :: rest) graph (value :: values) next
  | pending {rest : List Operand} {graph next : Graph} {values : List Value} (bits : Bits)
    (places : Places rest (graph.store bits.operation) values next) :
    Places (.pending bits :: rest) graph (.result graph.nodes.size :: values) next

/-- Placing operands always goes through. -/
theorem exists_places (operands : List Operand) (graph : Graph) :
    ∃ values next, placeOperands operands graph = .succeed values next ∧
      Places operands graph values next := by
  induction operands generalizing graph with
  | nil => exact ⟨[], graph, rfl, .nil graph⟩
  | cons operand rest inductionHypothesis =>
    cases operand with
    | existing value =>
      obtain ⟨values, next, placed, places⟩ := inductionHypothesis graph
      refine ⟨value :: values, next, ?_, .existing value places⟩
      rw [placeOperands, placed, Attempt.succeed_andThen]
    | pending bits =>
      obtain ⟨values, next, placed, places⟩ := inductionHypothesis (graph.store bits.operation)
      refine ⟨_, next, ?_, .pending bits places⟩
      rw [placeOperands, build_constant, Attempt.succeed_andThen, placed,
        Attempt.succeed_andThen]

section Places

variable {operands : List Operand} {values : List Value}

theorem Places.growth (places : Places operands graph values next) : graph.Growth next := by
  induction places with
  | nil graph => exact .refl
  | existing value _ inductionHypothesis => exact inductionHypothesis
  | @pending rest graph next values bits _ inductionHypothesis =>
    exact inductionHypothesis.head ⟨_, bits.verify_operation _ _, rfl⟩

theorem Places.size_le (places : Places operands graph values next) :
    graph.nodes.size ≤ next.nodes.size := by
  induction places with
  | nil graph => exact Nat.le_refl _
  | existing value _ inductionHypothesis => exact inductionHypothesis
  | pending bits _ inductionHypothesis =>
    rw [size_store] at inductionHypothesis
    exact Nat.le_of_succ_le inductionHypothesis

/-- Constants read nothing, so the ranks stay as they are. -/
theorem Places.ranked {rank : Value → Nat} (places : Places operands graph values next)
    (wellFormed : graph.WellFormed) (ranked : graph.Ranked rank) : next.Ranked rank := by
  induction places with
  | nil graph => exact ranked
  | existing value _ inductionHypothesis => exact inductionHypothesis wellFormed ranked
  | @pending rest graph next values bits _ inductionHypothesis =>
    have verified := bits.verify_operation graph.scope graph.strictness
    refine inductionHypothesis (wellFormed.store verified) ?_
    have above : ∀ value ∈ bits.operation.operands, rank value < 0 := nofun
    have stored := ranked.store wellFormed verified above
    rwa [← ranked.fresh graph.nodes.size (Nat.le_refl _), Function.update_eq_self] at stored

/-- Every operation is one that was there, or a constant. -/
theorem Places.operation?_cases (places : Places operands graph values next) {id : Nat}
    {operation : Operation} (found : next.operation? id = some operation) :
    graph.operation? id = some operation ∨
      graph.nodes.size ≤ id ∧ ∃ bits : Bits, operation = bits.operation := by
  induction places with
  | nil graph => exact .inl found
  | existing value _ inductionHypothesis => exact inductionHypothesis found
  | @pending rest graph next values bits _ inductionHypothesis =>
    rcases inductionHypothesis found with before | ⟨new, constant⟩
    · rw [operation?_store] at before
      split at before
      · rename_i here
        cases before
        exact .inr ⟨Nat.le_of_eq here.symm, bits, rfl⟩
      · exact .inl before
    · rw [size_store] at new
      exact .inr ⟨Nat.le_of_succ_le new, constant⟩

/-- What an operand stands for in a graph: the value that it names, or the result of a constant
operation. -/
def StandsFor (graph next : Graph) (value : Value) : Operand → Prop
  | .existing named => value = named
  | .pending bits => ∃ id, value = .result id ∧ graph.nodes.size ≤ id ∧
    next.operation? id = some bits.operation

theorem Places.standFor (places : Places operands graph values next) :
    List.Forall₂ (fun operand value => StandsFor graph next value operand) operands values := by
  induction places with
  | nil graph => exact .nil
  | existing value _ inductionHypothesis => exact .cons rfl inductionHypothesis
  | @pending rest graph next values bits places inductionHypothesis =>
    have stored : next.operation? graph.nodes.size = some bits.operation :=
      places.growth.extends.operation? _ _ (operation?_store_self graph bits.operation)
    refine .cons ⟨_, rfl, Nat.le_refl _, stored⟩ ?_
    refine inductionHypothesis.imp fun operand value stands => ?_
    cases operand with
    | existing named => exact stands
    | pending other =>
      obtain ⟨id, same, new, found⟩ := stands
      rw [size_store] at new
      exact ⟨id, same, Nat.le_of_succ_le new, found⟩

/-- What stands for an operand was mentioned, or its number had not been given out. -/
theorem standsFor_cases
    (stand : List.Forall₂ (fun operand value => StandsFor graph next value operand)
      operands values) {read : Value} (member : read ∈ values) :
    .existing read ∈ operands ∨ ∃ number, read = .result number ∧ graph.nodes.size ≤ number := by
  obtain ⟨operand, inside, stands⟩ := exists_of_forall₂ stand.flip member
  cases operand with
  | existing named =>
    cases stands
    exact .inl inside
  | pending bits =>
    obtain ⟨number, same, new, _⟩ := stands
    exact .inr ⟨number, same, new⟩

/-- What stands for operands still does once an operation is stored on it. -/
theorem Places.standFor_store (places : Places operands graph values next)
    (operation : Operation) :
    List.Forall₂ (fun operand value => StandsFor graph (next.store operation) value operand)
      operands values := by
  refine places.standFor.imp fun operand value stands => ?_
  cases operand with
  | existing named => exact stands
  | pending bits =>
    obtain ⟨id, same, new, found⟩ := stands
    exact ⟨id, same, new, (extends_store next operation).operation? _ _ found⟩

end Places

/-! ### Building proposals -/

end Graph

/-- The operation of a shape on the values that its operands stand for. -/
def Shape.operation (shape : Shape) (values : List Value) : Operation :=
  ⟨shape.kind, values, shape.attr, shape.type⟩

namespace Graph

variable {graph next : Graph} {replacement : Replacement} {value : Value}

/-- A proposal is turned into a value. -/
inductive Builds (graph : Graph) : Replacement → Value → Graph → Prop where
  | existing {value : Value} (held : graph.holds value = true) :
    Builds graph (.existing value) value graph
  | constant (bits : Bits) :
    Builds graph (.constant bits) (.result graph.nodes.size) (graph.store bits.operation)
  | fresh {shape : Shape} {values : List Value} {placed : Graph}
    (places : Places shape.operands graph values placed)
    (verified : (shape.operation values).verify placed.scope placed.strictness = .ok ()) :
    Builds graph (.fresh shape) (.result placed.nodes.size)
      (placed.store (shape.operation values))

theorem build_general (graph : Graph) (shape : Shape) (values : List Value) :
    graph.build (.general shape.kind values shape.attr (some shape.type)) =
      match (shape.operation values).verify graph.scope graph.strictness with
      | .ok () =>
        .succeed (.result graph.nodes.size) (graph.store (shape.operation values))
      | .error reason => .fail reason graph := by
  cases verified : (shape.operation values).verify graph.scope graph.strictness with
  | error reason =>
    unfold Shape.operation at verified
    simp only [Graph.build, Blueprint.build, Operation.build, bind, Except.bind, verified]
  | ok _ =>
    have built : (Blueprint.general shape.kind values shape.attr (some shape.type)).build
        graph.scope graph.strictness = .ok (shape.operation values) := by
      have same := verified
      unfold Shape.operation at same ⊢
      simp only [Blueprint.build, Operation.build, bind, Except.bind, same]
      rfl
    rw [Graph.build, built]
    exact insert_eq_succeed verified

/-- A proposal is built, or it is refused and leaves some constants behind. -/
theorem materialize_cases (graph : Graph) (replacement : Replacement) :
    (∃ value next, graph.materialize replacement = .succeed value next ∧
        Builds graph replacement value next) ∨
      ∃ reason operands values next, graph.materialize replacement = .fail reason next ∧
        Places operands graph values next := by
  cases replacement with
  | existing value =>
    rw [materialize]
    by_cases held : graph.holds value = true
    · exact .inl ⟨value, graph, if_pos held, .existing held⟩
    · exact .inr ⟨_, [], [], graph, if_neg held, .nil graph⟩
  | constant bits => exact .inl ⟨_, _, build_constant graph bits, .constant bits⟩
  | fresh shape =>
    obtain ⟨values, placed, same, places⟩ := exists_places shape.operands graph
    rw [materialize, same, Attempt.succeed_andThen, build_general]
    cases verified : (shape.operation values).verify placed.scope placed.strictness with
    | ok _ => exact .inl ⟨_, _, rfl, .fresh places verified⟩
    | error reason => exact .inr ⟨reason, _, _, placed, rfl, places⟩

theorem Builds.growth (builds : Builds graph replacement value next) : graph.Growth next := by
  cases builds with
  | existing _ => exact .refl
  | constant bits => exact .single ⟨_, bits.verify_operation _ _, rfl⟩
  | fresh places verified => exact .tail places.growth ⟨_, verified, rfl⟩

/-- What is built has the type of the proposal. -/
theorem Builds.typeOf (builds : Builds graph replacement value next) {type : BitType}
    (typed : replacement.type? graph.scope = some type) : next.typeOf value = some type := by
  cases builds with
  | existing _ => exact typed
  | constant bits =>
    rw [← typed]
    exact typeOf_result (operation?_store_self graph bits.operation)
  | fresh places verified =>
    rw [← typed]
    exact typeOf_result (operation?_store_self _ _)

/-- What is built is not an operation that was there, unless that is proposed. -/
theorem Builds.apart (builds : Builds graph replacement value next) {id : Nat}
    (live : graph.isLive id = true) (other : replacement ≠ .existing (.result id)) :
    Value.result id ≠ value := by
  obtain ⟨operation, found⟩ := (graph.isLive_iff id).mp live
  have below := lt_size_of_operation? found
  cases builds with
  | existing _ => exact fun same => other (congrArg Replacement.existing same.symm)
  | constant bits =>
    intro same
    cases same
    exact Nat.lt_irrefl _ below
  | fresh places verified =>
    intro same
    cases same
    exact absurd (below.trans_le places.size_le) (Nat.lt_irrefl _)

/-- What is built can be given a rank below any bound that lies above what the proposal
mentions. -/
theorem Builds.exists_ranked (builds : Builds graph replacement value next)
    (wellFormed : graph.WellFormed) {rank : Value → Nat} (ranked : graph.Ranked rank)
    {height : Nat} (above : ∀ mentioned ∈ replacement.values, rank mentioned < height)
    (positive : ∀ shape, replacement = .fresh shape → shape.pending ≠ [] → 0 < height) :
    ∃ ranking, next.Ranked ranking ∧ ranking value ≤ height ∧
      ∀ old, graph.holds old = true → ranking old = rank old := by
  cases builds with
  | existing _ =>
    exact ⟨rank, ranked, Nat.le_of_lt (above value (List.mem_singleton_self value)), fun _ _ => rfl⟩
  | constant bits =>
    have places : Places [.pending bits] graph _ (graph.store bits.operation) :=
      .pending bits (.nil _)
    refine ⟨rank, places.ranked wellFormed ranked, ?_, fun _ _ => rfl⟩
    rw [ranked.fresh _ (Nat.le_refl _)]
    exact Nat.zero_le height
  | @fresh shape values placed places verified =>
    have placedRanked := places.ranked wellFormed ranked
    have below : ∀ read ∈ (shape.operation values).operands, rank read < height := by
      intro read member
      obtain ⟨operand, inside, stands⟩ := exists_of_forall₂ places.standFor.flip member
      cases operand with
      | existing named =>
        cases stands
        exact above read (List.mem_filterMap.mpr ⟨_, inside, rfl⟩)
      | pending bits =>
        obtain ⟨id, rfl, new, _⟩ := stands
        rw [ranked.fresh id new]
        exact positive shape rfl (List.ne_nil_of_mem (List.mem_filterMap.mpr ⟨_, inside, rfl⟩))
    refine ⟨_, placedRanked.store (places.growth.changes.wellFormed wellFormed) verified below, ?_,
      fun old held => ?_⟩
    · rw [Function.update_self]
    · refine Function.update_of_ne ?_ _ _
      rintro rfl
      obtain ⟨operation, found⟩ := (graph.isLive_iff _).mp held
      exact absurd ((lt_size_of_operation? found).trans_le places.size_le) (Nat.lt_irrefl _)

/-! ### Replacing -/

/-- An operation gives way to another value that is built, if it has its type. -/
theorem replace_of_typeOf (wellFormed : graph.WellFormed) {id : Nat} {operation : Operation}
    (found : graph.operation? id = some operation)
    (built : graph.materialize replacement = .succeed value next)
    (builds : Builds graph replacement value next) (apart : Value.result id ≠ value)
    (typed : next.typeOf value = some operation.type) :
    graph.replace id replacement = .succeed value (next.supplant id operation value) := by
  have live : graph.isLive id = true := (graph.isLive_iff id).mpr ⟨operation, found⟩
  have after := builds.growth.extends.operation? id operation found
  have supplanted := supplant_eq_succeed (builds.growth.changes.wellFormed wellFormed) after apart
    typed
  have moved := replaceUses_eq_succeed apart (typeOf_result after) typed
  rw [moved, Attempt.succeed_andThen] at supplanted
  rw [Graph.replace, if_pos live, built, Attempt.succeed_andThen, if_neg apart.symm, moved,
    Attempt.succeed_andThen, supplanted, Attempt.succeed_andThen]

/-- An operation gives way to what is built for it. -/
theorem replace_of_builds (wellFormed : graph.WellFormed) {id : Nat} {operation : Operation}
    (found : graph.operation? id = some operation)
    (typed : replacement.type? graph.scope = some operation.type)
    (other : replacement ≠ .existing (.result id))
    (built : graph.materialize replacement = .succeed value next)
    (builds : Builds graph replacement value next) :
    graph.replace id replacement = .succeed value (next.supplant id operation value) := by
  have live : graph.isLive id = true := (graph.isLive_iff id).mpr ⟨operation, found⟩
  exact replace_of_typeOf wellFormed found built builds (builds.apart live other)
    (builds.typeOf typed)

/-- A suitable proposal is built, if the strictness asks for two operands at most. -/
theorem exists_builds (strict : graph.strictness.minArity ≤ 2)
    {type : BitType} (typed : replacement.type? graph.scope = some type)
    (fits : ∀ shape, replacement = .fresh shape → shape.Fits graph.scope) :
    ∃ value next, graph.materialize replacement = .succeed value next ∧
      Builds graph replacement value next := by
  cases replacement with
  | existing value =>
    have held := (graph.holds_iff value).mpr ⟨type, typed⟩
    exact ⟨value, graph, if_pos held, .existing held⟩
  | constant bits => exact ⟨_, _, build_constant graph bits, .constant bits⟩
  | fresh shape =>
    obtain ⟨values, placed, same, places⟩ := exists_places shape.operands graph
    obtain ⟨types, each, accepts⟩ := fits shape rfl
    have extended := places.growth.extends
    have verified : (shape.operation values).verify placed.scope placed.strictness = .ok () := by
      rw [Operation.verify_eq_ok_iff]
      refine ⟨types, ?_, ?_⟩
      · refine forall₂_of_common (fun operand value type stands typed => ?_) places.standFor each
        cases operand with
        | existing named =>
          cases stands
          exact extended.typeOf typed
        | pending bits =>
          obtain ⟨id, rfl, _, found⟩ := stands
          cases typed
          exact typeOf_result found
      · obtain ⟨attr, arity, widths⟩ := accepts placed.strictness (extended.strictness ▸ strict)
        exact ⟨attr, arity, widths⟩
    refine ⟨_, _, ?_, .fresh places verified⟩
    rw [materialize, same, Attempt.succeed_andThen, build_general, verified]

end Graph

end BitGraph
