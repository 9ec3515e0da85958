/-
This file says exactly what can be found wrong with a graph that arose from
edits and passes. Its operations were well formed when they were stored and stay
well formed, so under another strictness nothing is wrong with them but that they
may have too few operands; and the only thing that can be wrong with the graph as
a whole is a circle.
-/

import BitGraph.Proofs.Edit.Handles
import BitGraph.Proofs.Simplify.Success
import BitGraph.Simplify.Audit

namespace BitGraph

/-! ### Too few operands -/

/-- The kinds whose number of operands is judged by the strictness in force. -/
def Kind.variadic : List Kind :=
  [.add, .mul, .and, .or, .xor]

theorem Kind.mem_variadic_iff (kind : Kind) :
    kind ∈ variadic ↔ kind.signature.operands = .variadic := by
  cases kind <;> decide

namespace Operation

variable {operation : Operation} {scope : Scope} {built : Strictness}

/-- The operation has fewer operands than a strictness asks for. -/
def IsShort (operation : Operation) (strictness : Strictness) : Prop :=
  operation.kind ∈ Kind.variadic ∧ operation.operands.length < strictness.minArity

instance (operation : Operation) (strictness : Strictness) :
    Decidable (operation.IsShort strictness) :=
  inferInstanceAs (Decidable (_ ∧ _))

/-- The report about an operation with too few operands. -/
def shortage (operation : Operation) (strictness : Strictness) (id : Nat) : Diagnostic where
  severity := .error
  code := ⟨.error, 102⟩
  message :=
    let expected := Arity.atLeast strictness.minArity
    s!"{operation.kind} takes {expected} operands, found {operation.operands.length}"
  op := some id
  notes := [operation.render]

theorem arity_of_variadic (kind : operation.kind ∈ Kind.variadic) (strictness : Strictness) :
    operation.kind.arity strictness = .atLeast strictness.minArity := by
  rw [Kind.arity, Signature.arity, (Kind.mem_variadic_iff _).mp kind]

/-- An operation that is well formed under one strictness is well formed under any other, unless it
has too few operands for it. -/
theorem verify_of_verified (verified : operation.verify scope built = .ok ())
    (strictness : Strictness) :
    operation.verify scope strictness =
      if operation.IsShort strictness then
        .error (.arity operation.kind (.atLeast strictness.minArity) operation.operands.length)
      else .ok () := by
  obtain ⟨types, typed, accepts⟩ := (operation.verify_eq_ok_iff scope built).mp verified
  by_cases short : operation.IsShort strictness
  · have arity := arity_of_variadic short.1 strictness
    have refused : (operation.kind.arity strictness).accepts operation.operands.length = false := by
      rw [arity]
      exact decide_eq_false (Nat.not_le.mpr short.2)
    rw [if_pos short, verify, if_pos accepts.attr, refused, arity]
    rfl
  · rw [if_neg short, verify_eq_ok_iff]
    refine ⟨types, typed, ?_⟩
    by_cases kind : operation.kind ∈ Kind.variadic
    · refine { accepts with arity := ?_ }
      have enough := Nat.not_lt.mp fun below => short ⟨kind, below⟩
      rw [arity_of_variadic kind, ← typed.length_eq]
      exact decide_eq_true enough
    · exact accepts.of_fixed (fun shape => kind ((Kind.mem_variadic_iff _).mpr shape)) strictness

/-- A strictness that asks for no more operands finds none missing. -/
theorem not_isShort_of_verified (verified : operation.verify scope built = .ok ())
    {strictness : Strictness} (laxer : strictness.minArity ≤ built.minArity) :
    ¬ operation.IsShort strictness := by
  rintro ⟨kind, below⟩
  have same := verify_of_verified verified built
  rw [verified, if_pos ⟨kind, below.trans_le laxer⟩] at same
  cases same

end Operation

/-- The report about a circle through an operation. -/
def circleReport (id : Nat) : Diagnostic where
  severity := .error
  code := ⟨.error, 108⟩
  message := s!"cycle through operation %{id}"
  op := some id

namespace Graph

variable {graph : Graph}

/-! ### Everything that is reported -/

/-- The live operations with too few operands, each with its number, in order. -/
def short (graph : Graph) (strictness : Strictness) : List (Nat × Operation) :=
  graph.liveIds.filterMap fun id => (graph.operation? id).bind fun operation =>
    if operation.IsShort strictness then some (id, operation) else none

theorem mem_short_iff (graph : Graph) (strictness : Strictness) (id : Nat)
    (operation : Operation) : (id, operation) ∈ graph.short strictness ↔
      graph.operation? id = some operation ∧ operation.IsShort strictness := by
  simp only [short, List.mem_filterMap, Option.bind_eq_some_iff, Option.ite_none_right_eq_some,
    Option.some.injEq, Prod.mk.injEq]
  constructor
  · rintro ⟨_, _, _, found, isShort, rfl, rfl⟩
    exact ⟨found, isShort⟩
  · rintro ⟨found, isShort⟩
    have member := (graph.mem_liveIds_iff id).mpr ⟨operation, found⟩
    exact ⟨id, member, operation, found, isShort, rfl, rfl⟩

theorem pairwise_short (graph : Graph) (strictness : Strictness) :
    (graph.short strictness).Pairwise fun earlier later => earlier.1 < later.1 := by
  refine graph.ascending_liveIds.filterMap _ fun first second below => ?_
  simp only [Option.bind_eq_some_iff, Option.ite_none_right_eq_some, Option.some.injEq]
  rintro _ ⟨_, _, _, rfl⟩ _ ⟨_, _, _, rfl⟩
  exact below

/-- Only operations with too few operands are complained about. -/
theorem WellFormed.complaints (wellFormed : graph.WellFormed) (strictness : Strictness) :
    graph.complaints strictness =
      (graph.short strictness).map (fun entry => entry.2.shortage strictness entry.1) ++
        graph.circle?.toList := by
  rw [Graph.complaints, short, List.map_filterMap]
  congr 2
  funext id
  cases found : graph.operation? id with
  | none => simp only [complaint?, found, Option.bind_none, Option.map_none]
  | some operation =>
    simp only [complaint?, found, Option.bind_some,
      Operation.verify_of_verified (wellFormed.verified id operation found) strictness]
    by_cases isShort : operation.IsShort strictness
    · simp only [if_pos isShort, Option.map_some]
      rfl
    · simp only [if_neg isShort, Option.map_none]

theorem circle?_of_acyclic (acyclic : graph.Acyclic) : graph.circle? = none := by
  obtain ⟨ids, ordered, _⟩ := acyclic.exists_order
  rw [circle?, ordered]

theorem circle?_of_order {id : Nat} (failed : graph.order = .error (.cyclic id)) :
    graph.circle? = some (circleReport id) := by
  rw [circle?, failed]
  rfl

/-- Nothing is wrong with a graph without circles under a strictness that is no stricter than its
own. -/
theorem WellFormed.audit_clean (wellFormed : graph.WellFormed) (acyclic : graph.Acyclic)
    {strictness : Strictness} (laxer : strictness.minArity ≤ graph.strictness.minArity)
    (sink : Sink) : graph.audit strictness sink = (true, sink) := by
  have none_short : graph.short strictness = [] := by
    refine List.eq_nil_iff_forall_not_mem.mpr fun ⟨id, operation⟩ member => ?_
    obtain ⟨found, isShort⟩ := (graph.mem_short_iff strictness id operation).mp member
    exact Operation.not_isShort_of_verified (wellFormed.verified id operation found) laxer isShort
  rw [audit, wellFormed.complaints, none_short, circle?_of_acyclic acyclic]
  rfl

/-- Under any strictness the audit of a graph that can arise reports the sums, products and bitwise
operations with too few operands, in order, then a circle if there is one, and nothing else; it
says that all is well exactly if it reported nothing. Under a strictness that is no stricter than
the graph's own, all is well after any history that leaves no circle, and after simplifying what
it led to. -/
theorem audit_reports (reachable : graph.Reachable) (strictness : Strictness) (sink : Sink) :
    (∃ circles : List Diagnostic,
      let reports := (graph.short strictness).map (fun entry =>
        entry.2.shortage strictness entry.1) ++ circles
      graph.audit strictness sink = (reports.isEmpty, sink.emitAll reports) ∧
      (graph.Acyclic ∧ circles = [] ∨
        ¬ graph.Acyclic ∧ ∃ id, graph.order = .error (.cyclic id) ∧ circles = [circleReport id])) ∧
    (∀ id operation, (id, operation) ∈ graph.short strictness ↔
      graph.operation? id = some operation ∧
        operation.kind ∈ [Kind.add, Kind.mul, Kind.and, Kind.or, Kind.xor] ∧
        operation.operands.length < strictness.minArity) ∧
    (graph.short strictness).Pairwise (fun earlier later => earlier.1 < later.1) ∧
    (strictness.minArity ≤ graph.strictness.minArity → ∀ final, graph.Leads final →
      final.Acyclic → final.audit strictness sink = (true, sink) ∧
        ∀ plan log,
          (final.simplify plan log).state.graph.audit strictness sink = (true, sink)) := by
  have wellFormed := reachable.wellFormed
  refine ⟨⟨graph.circle?.toList, ?_, ?_⟩, graph.mem_short_iff strictness,
    graph.pairwise_short strictness, fun laxer final leads acyclic => ?_⟩
  · rw [← wellFormed.complaints strictness]
    rfl
  · by_cases acyclic : graph.Acyclic
    · rw [circle?_of_acyclic acyclic]
      exact .inl ⟨acyclic, rfl⟩
    · obtain ⟨id, failed⟩ := order_of_not_acyclic acyclic
      rw [circle?_of_order failed]
      exact .inr ⟨acyclic, id, failed, rfl⟩
  · have clean : ∀ later, graph.Leads later → later.Acyclic →
        later.audit strictness sink = (true, sink) := fun later leads acyclic => by
      have kept := (leads.continues reachable).strictness
      exact (reachable.leads leads).wellFormed.audit_clean acyclic (kept ▸ laxer) sink
    refine ⟨clean final leads acyclic, fun plan log => ?_⟩
    have finalWellFormed := (reachable.leads leads).wellFormed
    have rewrites :=
      rewrites_snapshots finalWellFormed plan log _ (final.state_mem_snapshots plan log)
    exact clean _ (leads.step (.simplify plan log)) (rewrites.acyclic finalWellFormed acyclic)

/-- Only the mask of the masked quotient is short of a third operand, nothing is wrong with what it
is simplified to, and the conjunction that reads itself is a circle. -/
theorem audit_samples :
    maskedQuotient.Reachable ∧ maskedQuotient.Acyclic ∧
      (maskedQuotient.short ⟨3⟩).map Prod.fst = [2] ∧
      (maskedQuotient.audit ⟨3⟩ {}).1 = false ∧
      (∀ plan log, (maskedQuotient.simplify plan log).state.graph.audit {} {} = (true, {})) ∧
      ∃ id, selfReading.audit {} {} = (false, Sink.emitAll {} [circleReport id]) := by
  refine ⟨reachable_maskedQuotient, acyclic_maskedQuotient, by decide, ?_, ?_, ?_⟩
  · obtain ⟨⟨circles, same, _⟩, _⟩ := audit_reports reachable_maskedQuotient ⟨3⟩ {}
    have some_short : maskedQuotient.short ⟨3⟩ ≠ [] := by decide
    rw [same]
    simp [some_short]
  · obtain ⟨_, _, _, clean⟩ := audit_reports reachable_maskedQuotient {} {}
    exact (clean (Nat.le_refl _) maskedQuotient .start acyclic_maskedQuotient).2
  · obtain ⟨⟨circles, same, ⟨acyclic, _⟩ | ⟨_, id, _, rfl⟩⟩, _⟩ :=
      audit_reports reachable_selfReading {} {}
    · exact absurd acyclic circular_selfReading
    · have none_short : selfReading.short {} = [] := by decide
      rw [none_short] at same
      exact ⟨id, same⟩

end Graph

end BitGraph
