/-
This file weighs graphs. The weight of a graph is the sum of weights of its live
operations, so storing an operation adds its weight, dropping one takes it away,
and redirecting a value changes nothing as long as weights do not depend on which
values are read. What a proposal adds is bounded before it is built: constants
for what is pending, and one operation of the proposed shape.
-/

import BitGraph.Proofs.Graph.Building

namespace BitGraph

/-- What a proposal adds at most, if constants and shapes add no more than given. -/
def Replacement.cost (constant : Nat) (fresh : Shape → Nat) : Replacement → Nat
  | .existing _ => 0
  | .constant _ => constant
  | .fresh shape => shape.pending.length * constant + fresh shape

namespace Graph

variable {graph next : Graph} {weight other : Nat → Operation → Nat}

/-- The weights of all live operations, taken together. -/
def total (graph : Graph) (weight : Nat → Operation → Nat) : Nat :=
  ∑ id ∈ Finset.range graph.nodes.size, ((graph.operation? id).map (weight id)).getD 0

/-! ### Comparing weights -/

theorem total_mono (lighter : ∀ id operation, graph.operation? id = some operation →
    weight id operation ≤ other id operation) : graph.total weight ≤ graph.total other := by
  refine Finset.sum_le_sum fun id _ => ?_
  cases found : graph.operation? id with
  | none => exact Nat.le_refl 0
  | some operation => exact lighter id operation found

/-! ### Weights under changes -/

theorem total_store (graph : Graph) (operation : Operation) (weight : Nat → Operation → Nat) :
    (graph.store operation).total weight =
      graph.total weight + weight graph.nodes.size operation := by
  rw [total, size_store, Finset.sum_range_succ, operation?_store_self]
  refine congrArg (· + weight graph.nodes.size operation) (Finset.sum_congr rfl fun id member => ?_)
  rw [operation?_store, if_neg (Nat.ne_of_lt (Finset.mem_range.mp member))]

theorem total_drop {id : Nat} {operation : Operation}
    (found : graph.operation? id = some operation) (dropped : Operation)
    (weight : Nat → Operation → Nat) :
    (graph.drop id dropped).total weight + weight id operation = graph.total weight := by
  have member : id ∈ Finset.range graph.nodes.size :=
    Finset.mem_range.mpr (lt_size_of_operation? found)
  rw [total, total, size_drop, ← Finset.sum_erase_add _ _ member,
    ← Finset.sum_erase_add (Finset.range graph.nodes.size) _ member, operation?_drop, if_pos rfl,
    found, Option.map_none, Option.getD_none, Nat.add_zero, Option.map_some, Option.getD_some]
  refine congrArg (· + weight id operation) (Finset.sum_congr rfl fun kept inside => ?_)
  rw [operation?_drop, if_neg (Finset.ne_of_mem_erase inside)]

section Substitute

variable (steady : ∀ id source target operation,
  weight id (Operation.substitute source target operation) = weight id operation)
include steady

theorem total_redirect (wellFormed : graph.WellFormed) (source target : Value) :
    (graph.redirect source target).total weight = graph.total weight := by
  rw [total, total, size_redirect]
  refine Finset.sum_congr rfl fun id _ => ?_
  rw [operation?_redirect wellFormed, Option.map_map]
  cases graph.operation? id with
  | none => rfl
  | some operation => exact steady id source target operation

/-- Supplanting an operation takes away its weight. -/
theorem total_supplant (wellFormed : graph.WellFormed) {id : Nat} {operation : Operation}
    (found : graph.operation? id = some operation) (value : Value) :
    (graph.supplant id operation value).total weight + weight id operation =
      graph.total weight := by
  rw [← total_redirect steady wellFormed (.result id) value, ← steady id (.result id) value]
  exact total_drop (operation?_redirect_self wellFormed found) _ weight

end Substitute

/-! ### Weights of what is built -/

theorem Places.total_le {operands : List Operand} {values : List Value}
    (places : Places operands graph values next) {constant : Nat}
    (constants : ∀ id (bits : Bits), weight id bits.operation ≤ constant) :
    next.total weight ≤
      graph.total weight + (operands.filterMap Operand.pending?).length * constant := by
  induction places with
  | nil graph => exact Nat.le_add_right _ _
  | existing value _ inductionHypothesis => exact inductionHypothesis
  | @pending rest graph next values bits _ inductionHypothesis =>
    have added := constants graph.nodes.size bits
    rw [total_store] at inductionHypothesis
    simp only [List.filterMap_cons, Operand.pending?, List.length_cons, Nat.succ_mul]
    omega

theorem Places.length_eq {operands : List Operand} {values : List Value}
    (places : Places operands graph values next) : values.length = operands.length :=
  places.standFor.length_eq.symm

/-- What is built adds no more than the cost of the proposal. -/
theorem Builds.total_le {replacement : Replacement} {value : Value}
    (builds : Builds graph replacement value next) {constant : Nat} {fresh : Shape → Nat}
    (constants : ∀ id (bits : Bits), weight id bits.operation ≤ constant)
    (shapes : ∀ shape id values, replacement = .fresh shape → value = .result id →
      values.length = shape.operands.length → weight id (shape.operation values) ≤ fresh shape) :
    next.total weight ≤ graph.total weight + replacement.cost constant fresh := by
  cases builds with
  | existing _ => exact Nat.le_refl _
  | constant bits =>
    rw [total_store]
    exact Nat.add_le_add_left (constants _ bits) _
  | @fresh shape values placed places verified =>
    have added := places.total_le constants
    have top := shapes shape placed.nodes.size values rfl rfl places.length_eq
    rw [total_store, Replacement.cost, Shape.pending, ← Nat.add_assoc]
    exact Nat.add_le_add added top

/-! ### Operations that compute -/

/-- The live operations that are not constants, in the order in which they were stored. -/
def computingIds (graph : Graph) : List Nat :=
  graph.liveIds.filter fun id => (graph.operation? id).any (·.kind ≠ .constant)

/-- How many live operations are not constants. -/
def computingCount (graph : Graph) : Nat :=
  graph.computingIds.length

/-- Each operation that is not a constant counts for one. -/
def countWeight (_ : Nat) (operation : Operation) : Nat :=
  if operation.kind = .constant then 0 else 1

theorem computingCount_eq_total (graph : Graph) :
    graph.computingCount = graph.total countWeight := by
  have counted : ∀ id, ((graph.operation? id).map (countWeight id)).getD 0 =
      if graph.isLive id && (graph.operation? id).any (·.kind ≠ .constant) then 1 else 0 := by
    intro id
    cases found : graph.operation? id with
    | none => simp
    | some operation =>
      have live := (graph.isLive_iff id).mpr ⟨operation, found⟩
      simp [live, countWeight]
  rw [computingCount, computingIds, liveIds, List.filter_filter, total, Arena.ids]
  induction graph.nodes.size with
  | zero => rfl
  | succ size inductionHypothesis =>
    rw [List.range_succ, List.filter_append, List.length_append, inductionHypothesis,
      Finset.sum_range_succ, counted]
    refine congrArg _ ?_
    rw [Bool.and_comm]
    split <;> simp_all

end Graph

end BitGraph
