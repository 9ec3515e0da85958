/-
This file proves that the parts of every graph that can arise fit together: the
use lists are exact, what is read exists, live operations are well formed, and
every number that was given out has one operation and one mark. Each step of a
history declares something or changes operations, so it is enough that these
keep what is claimed. Moving the uses of a value walks along a use list, so exact
use lists are what keeps it from reaching for an operand or an output that is not
there.
-/

import BitGraph.History
import BitGraph.Proofs.Simplify.Visiting

namespace BitGraph.Graph

/-! ### Steps of a history -/

/-- A step declares an input or an output, or it makes changes. -/
theorem Step.cases_changes {graph next : Graph} (step : graph.Step next)
    (wellFormed : graph.WellFormed) :
    (∃ name type, next = (graph.addInput name type).2) ∨
      (∃ name value, next = (graph.addOutput name value).state) ∨ graph.Changes next := by
  cases step with
  | addInput name type => exact .inl ⟨name, type, rfl⟩
  | addOutput name value => exact .inr (.inl ⟨name, value, rfl⟩)
  | insert operation => exact .inr (.inr (growth_insert graph operation).changes)
  | build blueprint => exact .inr (.inr (growth_build graph blueprint).changes)
  | materialize replacement => exact .inr (.inr (growth_materialize graph replacement).changes)
  | replaceUses source target => exact .inr (.inr (changes_replaceUses graph source target))
  | erase id => exact .inr (.inr (changes_erase graph id))
  | replace id replacement => exact .inr (.inr (changes_replace graph id replacement))
  | pass pass session =>
    have last := pass.state_mem_snapshots ⟨graph, session⟩
    have rewrites : graph.Rewrites true (pass.run ⟨graph, session⟩).state.graph :=
      pass.rewrites_snapshots (fun _ => rfl) wellFormed _ last
    exact .inr (.inr (rewrites.changes wellFormed))
  | simplify plan sink =>
    have rewrites :=
      rewrites_snapshots wellFormed plan sink _ (graph.state_mem_snapshots plan sink)
    exact .inr (.inr (rewrites.changes wellFormed))

theorem Reachable.wellFormed {graph : Graph} (reachable : graph.Reachable) :
    graph.WellFormed := by
  refine reachable.induct wellFormed_empty fun graph next wellFormed step => ?_
  rcases step.cases_changes wellFormed with ⟨name, type, rfl⟩ | ⟨name, value, rfl⟩ | changes
  · exact wellFormed.addInput name type
  · exact wellFormed.addOutput name value
  · exact changes.wellFormed wellFormed

/-! ### Places that exist -/

/-- A place that can be made to read another value: the operand or the output is there. -/
def Addresses (graph : Graph) : Use → Prop
  | .operand id index => ∃ operation, graph.stored? id = some operation ∧
      index < operation.operands.length
  | .output index => index < graph.outputs.size

theorem addresses_of_readAt? {graph : Graph} {use : Use} (reads : (graph.readAt? use).isSome) :
    graph.Addresses use := by
  obtain ⟨value, read⟩ := Option.isSome_iff_exists.mp reads
  cases use with
  | operand id index =>
    obtain ⟨operation, found, there⟩ := Option.bind_eq_some_iff.mp read
    exact ⟨operation, stored?_of_operation? found, (List.getElem?_eq_some_iff.mp there).1⟩
  | output index =>
    obtain ⟨output, there, _⟩ := Option.map_eq_some_iff.mp read
    exact (graph.outputs.isSome_get?_iff index).mp (Option.isSome_of_eq_some there)

/-- Making places read another value takes no place away. -/
theorem isSome_readAt?_foldl_retarget (target : Value) (moved : List Use) (graph : Graph)
    (use : Use) :
    ((moved.foldl (retarget target) graph).readAt? use).isSome = (graph.readAt? use).isSome := by
  cases use with
  | operand id index =>
    rw [readAt?, readAt?, operation?_foldl_retarget]
    cases graph.operation? id with
    | none => rfl
    | some operation => simp
  | output index =>
    rw [readAt?_output, readAt?_output, outputs_foldl_retarget]
    simp

/-- While the uses of a value are moved, the next place in line is there. -/
theorem WellFormed.addresses_next {graph : Graph} (wellFormed : graph.WellFormed)
    {source : Value} (target : Value) {done rest : List Use} {use : Use}
    (line : graph.uses source = done ++ use :: rest) :
    (done.foldl (retarget target) (graph.changeUses source fun _ => [])).Addresses use := by
  refine addresses_of_readAt? ?_
  have member : use ∈ graph.uses source := by
    rw [line]
    exact List.mem_append_right _ List.mem_cons_self
  rw [isSome_readAt?_foldl_retarget, readAt?_changeUses,
    (wellFormed.mem_uses_iff source use).mp member]
  rfl

/-! ### Graphs that can arise -/

/-- The type of bytes. -/
def byte : BitType :=
  ⟨8, by decide⟩

/-- A quotient by zero, masked by zero: the output fails as it stands, although it is zero whatever
the quotient may be. -/
def maskedQuotient : Graph :=
  let inputs := (addInput {} "a" byte).2
  let zero := (inputs.build (.constant ⟨byte.width, byte.positive, 0⟩)).state
  let quotient := (zero.build (.binary .div (.input 0) (.result 0))).state
  let masked := (quotient.build (.variadic .and [.result 1, .result 0])).state
  (masked.addOutput "y" (.result 2)).state

theorem reachable_maskedQuotient : maskedQuotient.Reachable :=
  ⟨{}, .step (.step (.step (.step (.step .start (.addInput _ _)) (.build _)) (.build _)) (.build _))
    (.addOutput _ _)⟩

theorem acyclic_maskedQuotient : maskedQuotient.Acyclic :=
  acyclic_of_ascending (by decide)

/-- Its only input is a byte. -/
theorem fits_maskedQuotient {bits : Bits} (width : bits.width = byte.width) :
    Assignment.Fits (fun _ => some bits) maskedQuotient := by
  have inputs : maskedQuotient.declaredInputs = [(0, byte)] := by decide
  intro index type typed
  rw [typeOf_input, inputs] at typed
  cases index with
  | zero =>
    cases typed
    exact ⟨bits, rfl, width⟩
  | succ index => cases typed

/-- Every graph that can arise, by edits and passes that go through or are refused, keeps exact use
lists, reads only what exists and holds only well-formed operations. -/
theorem Reachable.representation {graph : Graph} (reachable : graph.Reachable) :
    (∀ value, (graph.uses value).Nodup) ∧
    (∀ value id index, .operand id index ∈ graph.uses value ↔
      ∃ operation, graph.operation? id = some operation ∧
        operation.operands[index]? = some value) ∧
    (∀ value index, .output index ∈ graph.uses value ↔
      ∃ output, graph.outputs.get? index = some output ∧ output.value = value) ∧
    (∀ id operation, graph.operation? id = some operation →
      ∀ value ∈ operation.operands, graph.holds value = true) ∧
    (∀ value ∈ graph.outputValues, graph.holds value = true) ∧
    (∀ id operation, graph.operation? id = some operation →
      operation.verify graph.scope graph.strictness = .ok ()) ∧
    (∀ id, id < graph.nodes.size ↔ ∃ node, graph.nodes.get? id = some node ∧
      graph.stored? id = some node.operation ∧ graph.isLive id = node.live) ∧
    (∀ source target done use rest, graph.uses source = done ++ use :: rest →
      (done.foldl (retarget target) (graph.changeUses source fun _ => [])).Addresses use) := by
  have wellFormed := reachable.wellFormed
  refine ⟨wellFormed.nodup_uses, fun value id index => ?_, fun value index => ?_,
    fun id operation found value member => ?_, fun value driven => ?_, wellFormed.verified,
    fun id => ?_, fun source target done use rest line => wellFormed.addresses_next target line⟩
  · rw [wellFormed.mem_uses_iff]
    exact Option.bind_eq_some_iff
  · rw [wellFormed.mem_uses_iff]
    exact Option.map_eq_some_iff
  · obtain ⟨index, there⟩ := List.getElem?_of_mem member
    exact wellFormed.holds_of_readAt? (.operand id index) value
      ((readAt?_operand found index).trans there)
  · obtain ⟨index, there⟩ := List.getElem?_of_mem driven
    refine wellFormed.holds_of_readAt? (.output index) value ?_
    rw [readAt?_output, ← List.getElem?_map]
    exact there
  · rw [← graph.nodes.isSome_get?_iff, Option.isSome_iff_exists]
    refine exists_congr fun node => ⟨fun there => ⟨there, ?_, ?_⟩, And.left⟩
    · rw [stored?, there]
      rfl
    · rw [isLive, there]
      rfl

theorem representation_maskedQuotient : maskedQuotient.Reachable ∧
    maskedQuotient.uses (.result 0) = [.operand 1 1, .operand 2 1] ∧
    ∀ value, (maskedQuotient.uses value).Nodup :=
  ⟨reachable_maskedQuotient, by decide, reachable_maskedQuotient.representation.1⟩

end BitGraph.Graph
