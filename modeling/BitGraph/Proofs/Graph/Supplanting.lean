/-
This file defines what replacing and merging operations have in common: another
value is put in the place of an operation, and the operation is dropped. What is
supplanted is gone; every other operation stays, but for reading the new value;
and no circle is closed if the new value has a rank that is no higher.
-/

import BitGraph.Proofs.Graph.Changes
import BitGraph.Proofs.Graph.Ordering

namespace BitGraph.Graph

variable {graph : Graph} {rank : Value → Nat}

/-! ### What is read exists -/

theorem WellFormed.holds_of_reads (wellFormed : graph.WellFormed) {id : Nat} {value : Value}
    (reads : graph.Reads id value) : graph.holds value = true := by
  obtain ⟨operation, found, member⟩ := reads
  obtain ⟨index, here⟩ := List.mem_iff_getElem?.mp member
  exact wellFormed.holds_of_readAt? (.operand id index) value
    ((readAt?_operand found index).trans here)

theorem WellFormed.mem_liveIds_of_reads (wellFormed : graph.WellFormed) {id source : Nat}
    (reads : graph.Reads id (.result source)) : source ∈ graph.liveIds :=
  (graph.mem_liveIds_iff_isLive source).mpr (wellFormed.holds_of_reads reads)

theorem WellFormed.holds_of_dependsOn (wellFormed : graph.WellFormed) {reader source : Value}
    (depends : graph.DependsOn reader source) : graph.holds source = true := by
  induction depends with
  | direct reads => exact wellFormed.holds_of_reads reads
  | through _ _ inductionHypothesis => exact inductionHypothesis

theorem WellFormed.holds_of_output (wellFormed : graph.WellFormed) {value : Value}
    (driven : value ∈ graph.outputValues) : graph.holds value = true := by
  obtain ⟨index, here⟩ := List.mem_iff_getElem?.mp driven
  refine wellFormed.holds_of_readAt? (.output index) value ?_
  rw [readAt?_output, ← List.getElem?_map]
  exact here

/-! ### Ranks under changes -/

theorem Ranked.of_extends {before after : Graph} (ranked : after.Ranked rank)
    (extends_ : Extends before after) (size : after.nodes.size ≤ before.nodes.size) :
    before.Ranked rank where
  reads id value reads := by
    obtain ⟨operation, found, member⟩ := reads
    exact ranked.reads id value ⟨operation, extends_.operation? id operation found, member⟩
  fresh id unused := ranked.fresh id (size.trans unused)

theorem Ranked.drop (ranked : graph.Ranked rank) (id : Nat) (operation : Operation) :
    (graph.drop id operation).Ranked rank :=
  ranked.of_extends (graph.extends_drop id operation)
    (Nat.le_of_eq (size_drop graph id operation).symm)

/-- A stored operation can be given any rank above those of its operands. -/
theorem Ranked.store (ranked : graph.Ranked rank) (wellFormed : graph.WellFormed)
    {operation : Operation} (verified : operation.verify graph.scope graph.strictness = .ok ())
    {height : Nat} (above : ∀ value ∈ operation.operands, rank value < height) :
    (graph.store operation).Ranked
      (Function.update rank (.result graph.nodes.size) height) where
  reads id value reads := by
    have old : ∀ value, graph.holds value = true → Function.update rank
        (.result graph.nodes.size) height value = rank value := by
      intro value held
      refine Function.update_of_ne ?_ _ _
      rintro rfl
      obtain ⟨other, found⟩ := (graph.isLive_iff _).mp held
      exact absurd (lt_size_of_operation? found) (Nat.lt_irrefl _)
    obtain ⟨stored, found, member⟩ := reads
    rw [operation?_store] at found
    by_cases new : id = graph.nodes.size
    · rw [if_pos new] at found
      cases found
      obtain ⟨type, typed⟩ := Operation.exists_type_of_verify verified member
      rw [old value ((graph.holds_iff value).mpr ⟨type, typed⟩), new, Function.update_self]
      exact above value member
    · rw [if_neg new] at found
      have held := wellFormed.holds_of_reads ⟨stored, found, member⟩
      have live : graph.holds (.result id) = true := (graph.isLive_iff id).mpr ⟨stored, found⟩
      rw [old value held, old _ live]
      exact ranked.reads id value ⟨stored, found, member⟩
  fresh id unused := by
    rw [size_store] at unused
    have other : Value.result id ≠ .result graph.nodes.size := by
      intro same
      cases same
      exact absurd unused (Nat.not_succ_le_self _)
    rw [Function.update_of_ne other]
    exact ranked.fresh id (Nat.le_of_succ_le unused)

theorem reads_redirect (wellFormed : graph.WellFormed) (source target : Value) (id : Nat)
    (value : Value) :
    (graph.redirect source target).Reads id value ↔
      ∃ read, graph.Reads id read ∧ value = Value.substitute source target read := by
  unfold Reads
  rw [operation?_redirect wellFormed]
  constructor
  · rintro ⟨_, found, member⟩
    obtain ⟨operation, before, rfl⟩ := Option.map_eq_some_iff.mp found
    obtain ⟨read, inside, rfl⟩ := List.mem_map.mp member
    exact ⟨read, ⟨operation, before, inside⟩, rfl⟩
  · rintro ⟨read, ⟨operation, before, inside⟩, rfl⟩
    exact ⟨_, Option.map_eq_some_iff.mpr ⟨operation, before, rfl⟩, List.mem_map_of_mem inside⟩

/-- No circle is closed by reading a value that does not stand higher. -/
theorem Ranked.redirect (ranked : graph.Ranked rank) (wellFormed : graph.WellFormed)
    {source target : Value} (lower : rank target ≤ rank source) :
    (graph.redirect source target).Ranked rank where
  reads id value reads := by
    obtain ⟨read, before, rfl⟩ := (reads_redirect wellFormed source target id value).mp reads
    by_cases here : read = source
    · rw [here, Value.substitute_self]
      exact Nat.lt_of_le_of_lt lower (here ▸ ranked.reads id read before)
    · rw [Value.substitute_other here]
      exact ranked.reads id read before
  fresh id unused := ranked.fresh id (size_redirect graph source target ▸ unused)

/-! ### Supplanting an operation -/

/-- The graph in which a value stands in the place of an operation, which is dropped. -/
def supplant (graph : Graph) (id : Nat) (operation : Operation) (value : Value) : Graph :=
  (graph.redirect (.result id) value).drop id (operation.substitute (.result id) value)

section Supplant

variable {id : Nat} {operation : Operation} {value : Value}
  (wellFormed : graph.WellFormed) (found : graph.operation? id = some operation)
  (apart : Value.result id ≠ value) (typed : graph.typeOf value = some operation.type)

include wellFormed found in
theorem operation?_redirect_self :
    (graph.redirect (.result id) value).operation? id =
      some (operation.substitute (.result id) value) := by
  rw [operation?_redirect wellFormed, found]
  rfl

include found apart typed in
theorem uses_redirect_self :
    (graph.redirect (.result id) value).uses (.result id) = [] := by
  have heldSource := (graph.holds_iff (.result id)).mpr ⟨_, typeOf_result found⟩
  have heldTarget := (graph.holds_iff value).mpr ⟨_, typed⟩
  rw [uses_redirect graph apart heldSource heldTarget, if_pos rfl]

include wellFormed found apart typed in
theorem changes_supplant : graph.Changes (graph.supplant id operation value) := by
  refine .tail (.single (.redirect apart (typeOf_result found) typed)) ?_
  exact .drop (operation?_redirect_self wellFormed found) (uses_redirect_self found apart typed)

include wellFormed in
theorem operation?_supplant (other : Nat) :
    (graph.supplant id operation value).operation? other =
      if other = id then none
      else (graph.operation? other).map (Operation.substitute (.result id) value) := by
  rw [supplant, operation?_drop, operation?_redirect wellFormed]

include wellFormed in
theorem outputs_supplant :
    (graph.supplant id operation value).outputs.toList = graph.outputs.toList.map fun output =>
      { output with value := Value.substitute (.result id) value output.value } := by
  rw [supplant, ← (extends_drop _ id (operation.substitute (.result id) value)).outputs,
    outputs_redirect wellFormed]

include wellFormed in
theorem Ranked.supplant (ranked : graph.Ranked rank) (lower : rank value ≤ rank (.result id)) :
    (graph.supplant id operation value).Ranked rank :=
  (ranked.redirect wellFormed lower).drop id _

include wellFormed in
theorem typeOf_supplant {other : Value} (kept : other ≠ .result id) :
    (graph.supplant id operation value).typeOf other = graph.typeOf other := by
  rw [Graph.supplant, typeOf_drop _ _ _ kept, typeOf_redirect wellFormed]

include wellFormed found apart typed in
/-- Moving the uses of an operation to another value of its type and erasing it supplants it. -/
theorem supplant_eq_succeed :
    (graph.replaceUses (.result id) value).andThen (fun _ graph => graph.erase id) =
      .succeed () (graph.supplant id operation value) := by
  rw [replaceUses_eq_succeed apart (typeOf_result found) typed, Attempt.succeed_andThen]
  exact erase_eq_succeed (operation?_redirect_self wellFormed found)
    (uses_redirect_self found apart typed)

end Supplant

end BitGraph.Graph
