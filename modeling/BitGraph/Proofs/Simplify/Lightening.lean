/-
This file proves that rewrites do not make a graph heavier. An operation that is
not a constant weighs the more the more it reads and the higher it stands, and it
outweighs the constants that may come with it. Folding shortens an operation or
moves it towards the inputs, merging and erasing take one away, so each of these
makes the graph lighter; bringing operands into order only never makes it
heavier. Besides, no rewrite adds to the operations that are not constants.
-/

import BitGraph.Proofs.Graph.Weight
import BitGraph.Proofs.Simplify.Success

namespace BitGraph

namespace Graph

variable {graph next : Graph} {rank ranking : Value → Nat} {id bound : Nat}
  {operation : Operation} {replacement : Replacement} {value : Value}

/-! ### Weights by rank -/

/-- What an operation weighs if values have these ranks. -/
def heft (rank : Value → Nat) (id : Nat) (operation : Operation) : Nat :=
  if operation.kind = .constant then 1
  else 2 * (1 + operation.operands.length + rank (.result id))

theorem heft_of_computing (computing : operation.kind ≠ .constant) :
    heft rank id operation = 2 * (1 + operation.operands.length + rank (.result id)) :=
  if_neg computing

theorem heft_substitute (rank : Value → Nat) (id : Nat) (source target : Value)
    (operation : Operation) :
    heft rank id (operation.substitute source target) = heft rank id operation := by
  simp [heft, Operation.substitute]

theorem heft_constant (rank : Value → Nat) (id : Nat) (bits : Bits) :
    heft rank id bits.operation = 1 :=
  if_pos (Operation.kind_of_constant? bits.constant?_operation)

theorem heft_pos (rank : Value → Nat) (id : Nat) (operation : Operation) :
    0 < heft rank id operation := by
  unfold heft
  split <;> omega

theorem heft_le {height : Nat} (low : rank (.result id) ≤ height) :
    heft rank id operation ≤ 2 * (1 + operation.operands.length + height) := by
  unfold heft
  split <;> omega

theorem heft_mono (low : rank (.result id) ≤ ranking (.result id)) :
    heft rank id operation ≤ heft ranking id operation := by
  unfold heft
  split <;> omega

/-- The graph weighs no more than given, for some ranks of its values. -/
def Within (graph : Graph) (bound : Nat) : Prop :=
  ∃ rank, graph.Ranked rank ∧ graph.total (heft rank) ≤ bound

theorem Acyclic.exists_within (acyclic : graph.Acyclic) : ∃ bound, graph.Within bound := by
  obtain ⟨rank, ranked⟩ := acyclic_iff_exists_ranked.mp acyclic
  exact ⟨_, rank, ranked, Nat.le_refl _⟩

/-! ### Replacing -/

/-- What an operation weighs gives way to the cost of what replaces it. The new operation can stand
anywhere between what it reads and the operation that it replaces. -/
theorem Builds.exists_total_le (builds : Builds graph replacement value next)
    (wellFormed : graph.WellFormed) (ranked : graph.Ranked rank)
    (found : graph.operation? id = some operation) (computing : operation.kind ≠ .constant)
    {height : Nat} (above : ∀ mentioned ∈ replacement.values, rank mentioned < height)
    (below : height ≤ rank (.result id))
    (positive : ∀ shape, replacement = .fresh shape → shape.pending ≠ [] → 0 < height) :
    ∃ ranking, (next.supplant id operation value).Ranked ranking ∧
      (next.supplant id operation value).total (heft ranking) +
          2 * (1 + operation.operands.length + rank (.result id)) ≤
        graph.total (heft rank) +
          replacement.cost 1 fun shape => 2 * (1 + shape.operands.length + height) := by
  obtain ⟨ranking, _, after, low, same⟩ :=
    builds.exists_ranked_supplant wellFormed ranked found above below positive
  have wellFormedNext := builds.growth.changes.wellFormed wellFormed
  have foundNext := builds.growth.extends.operation? id operation found
  have held : ∀ id operation, graph.operation? id = some operation →
      ranking (.result id) = rank (.result id) := fun id operation found =>
    same _ ((graph.isLive_iff id).mpr ⟨operation, found⟩)
  refine ⟨ranking, after, ?_⟩
  have supplanted := total_supplant (heft_substitute ranking) wellFormedNext foundNext value
  have added : next.total (heft ranking) ≤ graph.total (heft ranking) +
      replacement.cost 1 fun shape => 2 * (1 + shape.operands.length + height) := by
    refine builds.total_le (fun id bits => Nat.le_of_eq (heft_constant ranking id bits))
      fun shape id values _ same length => ?_
    rw [same] at low
    rw [← length]
    exact heft_le low
  have before : graph.total (heft ranking) ≤ graph.total (heft rank) :=
    total_mono fun id operation found => heft_mono (Nat.le_of_eq (held id operation found))
  rw [heft_of_computing computing, held id operation found] at supplanted
  omega

section Suits

variable {related : Except GraphError Bits → Except GraphError Bits → Prop}
  (wellFormed : graph.WellFormed) (found : graph.operation? id = some operation)
  (computing : operation.kind ≠ .constant)
  (suits : replacement.Suits graph.scope operation related)
  (builds : Builds graph replacement value next)
include wellFormed found computing suits builds

/-- What suits an operation weighs no more than it. -/
theorem Builds.within (within : graph.Within bound) :
    (next.supplant id operation value).Within bound := by
  obtain ⟨rank, ranked, light⟩ := within
  obtain ⟨ranking, after, total⟩ := builds.exists_total_le wellFormed ranked found computing
    (fun mentioned member => ranked.lt_of_near found (suits.near mentioned member))
    (Nat.le_refl _) (ranked.pos_of_pending found suits)
  refine ⟨ranking, after, ?_⟩
  cases replacement with
  | existing value =>
    simp only [Replacement.cost] at total
    omega
  | constant bits =>
    simp only [Replacement.cost] at total
    omega
  | fresh shape =>
    have size := suits.size shape rfl
    simp only [Replacement.cost] at total
    omega

/-- What suits an operation weighs less than it, if it is shorter or stands lower. -/
theorem Builds.exists_within_lt
    (lighter : ∀ shape, replacement = .fresh shape → shape.Lighter graph.scope operation)
    (within : graph.Within bound) :
    ∃ less < bound, (next.supplant id operation value).Within less := by
  obtain ⟨rank, ranked, light⟩ := within
  have near : ∀ mentioned ∈ replacement.values, rank mentioned < rank (.result id) :=
    fun mentioned member => ranked.lt_of_near found (suits.near mentioned member)
  have positive := ranked.pos_of_pending found suits
  have level := builds.exists_total_le wellFormed ranked found computing near (Nat.le_refl _)
    positive
  cases replacement with
  | existing value =>
    obtain ⟨ranking, after, total⟩ := level
    simp only [Replacement.cost] at total
    exact ⟨_, by omega, ranking, after, Nat.le_refl _⟩
  | constant bits =>
    obtain ⟨ranking, after, total⟩ := level
    simp only [Replacement.cost] at total
    exact ⟨_, by omega, ranking, after, Nat.le_refl _⟩
  | fresh shape =>
    have size := suits.size shape rfl
    rcases lighter shape rfl with
      shorter | ⟨source, inner, definition, operands, member, defined, read⟩
    · obtain ⟨ranking, after, total⟩ := level
      simp only [Replacement.cost] at total
      exact ⟨_, by omega, ranking, after, Nat.le_refl _⟩
    · -- A slice of a slice takes the place of the inner one.
      have pending : shape.pending = [] := by
        rw [Shape.pending, operands]
        rfl
      have lower := ranked.reads id inner ⟨operation, found, member⟩
      have above : ∀ mentioned ∈ (Replacement.fresh shape).values, rank mentioned < rank inner := by
        intro mentioned mentions
        rw [Replacement.values, operands] at mentions
        rw [List.mem_singleton.mp mentions]
        cases inner with
        | input index => cases defined
        | result number => exact ranked.reads number source ⟨definition, defined, read⟩
      obtain ⟨ranking, after, total⟩ := builds.exists_total_le wellFormed ranked found computing
        above lower.le fun other same some_ => by
          cases same
          exact absurd pending some_
      simp only [Replacement.cost, pending, List.length_nil] at total
      have short : shape.operands.length = 1 := by
        rw [operands]
        rfl
      have long : 0 < operation.operands.length := List.length_pos_of_mem member
      exact ⟨_, by omega, ranking, after, Nat.le_refl _⟩

end Suits

end Graph

/-! ### Rewrites of a pass -/

section Makes

open BitGraph.Graph

variable {pass : Pass} {graph next : Graph} {bound : Nat}

/-- Folding, merging and erasing make a graph lighter. -/
theorem Pass.Makes.exists_within_lt (makes : pass.Makes graph next) (other : pass ≠ .canonicalize)
    (wellFormed : graph.WellFormed) (within : graph.Within bound) :
    ∃ less < bound, next.Within less := by
  cases makes with
  | fold found proposed _ builds =>
    have suits := fold_suits (scope_typed graph) wellFormed.scope_verified
      (wellFormed.verified _ _ found) proposed
    refine builds.exists_within_lt wellFormed found (not_constant_of_fold proposed) suits
      (fun shape fresh => ?_) within
    rw [fresh] at proposed
    exact fold_lighter proposed
  | canonicalize _ _ _ _ => exact absurd rfl other
  | @merge id first operation apart found equal =>
    obtain ⟨rank, ranked, light⟩ := within
    obtain ⟨ranking, level, low, below⟩ := ranked.exists_level found equal
    have supplanted := total_supplant (heft_substitute ranking) wellFormed found
      (.result first)
    have before : graph.total (heft ranking) ≤ graph.total (heft rank) :=
      total_mono fun id _ _ => heft_mono (below (.result id))
    have positive := heft_pos ranking id operation
    exact ⟨_, by omega, ranking, level.supplant wellFormed low, Nat.le_refl _⟩
  | @sweep id operation found unused =>
    obtain ⟨rank, ranked, light⟩ := within
    have dropped := total_drop found operation (heft rank)
    have positive := heft_pos rank id operation
    exact ⟨_, by omega, rank, ranked.drop id operation, Nat.le_refl _⟩

/-- No rewrite makes a graph heavier. -/
theorem Pass.Makes.within (makes : pass.Makes graph next) (wellFormed : graph.WellFormed)
    (within : graph.Within bound) : next.Within bound := by
  by_cases other : pass = .canonicalize
  · subst other
    cases makes with
    | canonicalize found proposed _ builds =>
      have suits := canonicalize_suits (scope_typed graph) (wellFormed.verified _ _ found) proposed
      exact builds.within wellFormed found (not_constant_of_canonicalize proposed) suits within
  · obtain ⟨less, below, rank, ranked, light⟩ := makes.exists_within_lt other wellFormed within
    exact ⟨rank, ranked, light.trans below.le⟩

theorem countWeight_substitute (id : Nat) (source target : Value) (operation : Operation) :
    countWeight id (operation.substitute source target) = countWeight id operation := rfl

theorem countWeight_le (id : Nat) (operation : Operation) : countWeight id operation ≤ 1 := by
  unfold countWeight
  split <;> omega

/-- Replacing an operation that is not a constant adds at most one such operation. -/
theorem Graph.Builds.computingCount_le {id : Nat} {operation : Operation}
    {replacement : Replacement} {value : Value} (builds : Builds graph replacement value next)
    (wellFormed : graph.WellFormed) (found : graph.operation? id = some operation)
    (computing : operation.kind ≠ .constant) :
    (next.supplant id operation value).computingCount ≤ graph.computingCount := by
  have supplanted := total_supplant countWeight_substitute
    (builds.growth.changes.wellFormed wellFormed)
    (builds.growth.extends.operation? id operation found) value
  have constants : ∀ id (bits : Bits), countWeight id bits.operation ≤ 0 := fun _ bits =>
    Nat.le_of_eq (if_pos (Operation.kind_of_constant? bits.constant?_operation))
  have added : next.total countWeight ≤ graph.total countWeight + replacement.cost 0 fun _ => 1 :=
    builds.total_le constants fun _ id _ _ _ _ => countWeight_le id _
  have one : countWeight id operation = 1 := if_neg computing
  have cost : replacement.cost 0 (fun _ => 1) ≤ 1 := by
    cases replacement <;> simp [Replacement.cost]
  rw [computingCount_eq_total, computingCount_eq_total]
  omega

/-- No rewrite adds to the operations that are not constants. -/
theorem Pass.Makes.computingCount_le (makes : pass.Makes graph next)
    (wellFormed : graph.WellFormed) : next.computingCount ≤ graph.computingCount := by
  cases makes with
  | fold found proposed _ builds =>
    exact builds.computingCount_le wellFormed found (not_constant_of_fold proposed)
  | canonicalize found proposed _ builds =>
    exact builds.computingCount_le wellFormed found (not_constant_of_canonicalize proposed)
  | @merge id first operation apart found equal =>
    have supplanted := total_supplant countWeight_substitute wellFormed found (.result first)
    rw [computingCount_eq_total, computingCount_eq_total]
    omega
  | @sweep id operation found unused =>
    have dropped := total_drop found operation countWeight
    rw [computingCount_eq_total, computingCount_eq_total]
    omega

end Makes

end BitGraph
