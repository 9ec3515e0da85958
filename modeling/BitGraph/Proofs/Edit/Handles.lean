/-
This file proves that handles are stable. An operation that was stored keeps its
kind, its attribute, its result type and its number of operands; one that was
erased stays erased and is never touched again; a place that reads a value goes
on reading values of the same type that exist; inputs and outputs are only added.
Each single change of a graph keeps all of that, so a history of any length does,
whether its edits and passes go through or are refused.
-/

import BitGraph.Proofs.Edit.Refusals

namespace BitGraph

/-- All of an operation but the values that it reads: its kind, its attribute, its result type and
the number of its operands. -/
def Operation.mold (operation : Operation) : Kind × Attribute × BitType × Nat :=
  (operation.kind, operation.attr, operation.type, operation.operands.length)

theorem Operation.mold_substitute (source target : Value) (operation : Operation) :
    (operation.substitute source target).mold = operation.mold := by
  rw [mold, Operation.substitute, List.length_map]
  rfl

namespace Graph

variable {graph next start middle final : Graph} {id : Nat} {operation : Operation}
  {source target value : Value}

/-! ### Operations that were stored -/

theorem lt_size_of_stored? (stored : graph.stored? id = some operation) :
    id < graph.nodes.size := by
  obtain ⟨node, there, _⟩ := Option.map_eq_some_iff.mp stored
  rw [← graph.nodes.isSome_get?_iff, there]
  rfl

theorem operation?_of_stored? (stored : graph.stored? id = some operation)
    (live : graph.isLive id = true) : graph.operation? id = some operation := by
  obtain ⟨other, found⟩ := (graph.isLive_iff id).mp live
  cases stored.symm.trans (stored?_of_operation? found)
  exact found

theorem isLive_of_operation? (found : graph.operation? id = some operation) :
    graph.isLive id = true :=
  (graph.isLive_iff id).mpr ⟨operation, found⟩

/-- Making places read another value leaves an operation alone that none of them belongs to. -/
theorem stored?_foldl_retarget {moved : List Use} (apart : ∀ index, .operand id index ∉ moved)
    (graph : Graph) : (moved.foldl (retarget target) graph).stored? id = graph.stored? id := by
  induction moved generalizing graph with
  | nil => rfl
  | cons use rest inductionHypothesis =>
    rw [List.foldl_cons,
      inductionHypothesis fun index member => apart index (List.mem_cons_of_mem _ member)]
    cases use with
    | output index => rfl
    | operand changed position =>
      have other : id ≠ changed := by
        rintro rfl
        exact apart position List.mem_cons_self
      simp only [stored?, retarget]
      rw [Arena.get?_modify_other _ _ _ _ other]

/-- No use list holds an operand of an erased operation, so redirecting does not reach it. -/
theorem stored?_redirect_of_erased (wellFormed : graph.WellFormed)
    (erased : graph.isLive id = false) (source target : Value) :
    (graph.redirect source target).stored? id = graph.stored? id := by
  rw [redirect, stored?_changeUses, stored?_foldl_retarget, stored?_changeUses]
  intro index member
  obtain ⟨operation, found, _⟩ :=
    Option.bind_eq_some_iff.mp ((wellFormed.mem_uses_iff source _).mp member)
  rw [isLive_of_operation? found] at erased
  cases erased

theorem isLive_redirect (wellFormed : graph.WellFormed) (source target : Value) (id : Nat) :
    (graph.redirect source target).isLive id = graph.isLive id := by
  rw [Bool.eq_iff_iff, isLive_iff, isLive_iff, operation?_redirect wellFormed]
  simp

theorem stored?_drop (graph : Graph) (id : Nat) (operation : Operation) (other : Nat) :
    (graph.drop id operation).stored? other = graph.stored? other := by
  have folded := foldl_changeUses_same (fun graph => graph.stored? other)
    (fun graph value change => graph.stored?_changeUses value change other)
    (fun use uses => uses.filter (· ≠ use)) (readings id operation) graph
  refine Eq.trans ?_ folded
  unfold drop stored?
  by_cases here : other = id
  · rw [here, Arena.get?_modify_self, Option.map_map]
    rfl
  · rw [Arena.get?_modify_other _ _ _ _ here]

/-! ### What a history keeps -/

/-- The second graph continues the first one: what was stored keeps its mold, what was erased is
frozen, what live operations read keeps its type, and names, inputs and outputs are only added. -/
structure Continues (before after : Graph) : Prop where
  strictness : after.strictness = before.strictness
  names : before.names.entries.toList <+: after.names.entries.toList
  inputs : before.declaredInputs <+: after.declaredInputs
  /-- Outputs keep their places, their names and the types of their values. -/
  outputs : before.declaredOutputs <+: after.declaredOutputs
  stored : ∀ id operation, before.stored? id = some operation →
    (after.stored? id).map Operation.mold = some operation.mold
  erased : ∀ id operation, before.stored? id = some operation → before.isLive id = false →
    after.stored? id = some operation ∧ after.isLive id = false
  operands : ∀ id earlier later, before.operation? id = some earlier →
    after.operation? id = some later →
      later.operands.map after.typeOf = earlier.operands.map before.typeOf

theorem Continues.refl (graph : Graph) : Continues graph graph where
  strictness := rfl
  names := List.prefix_rfl
  inputs := List.prefix_rfl
  outputs := List.prefix_rfl
  stored id operation stored := by rw [stored, Option.map_some]
  erased id operation stored dead := ⟨stored, dead⟩
  operands id earlier later found foundLater := by
    cases found.symm.trans foundLater
    rfl

theorem Continues.trans (left : Continues start middle) (right : Continues middle final) :
    Continues start final where
  strictness := right.strictness.trans left.strictness
  names := left.names.trans right.names
  inputs := left.inputs.trans right.inputs
  outputs := left.outputs.trans right.outputs
  stored id operation stored := by
    obtain ⟨between, there, same⟩ := Option.map_eq_some_iff.mp (left.stored id operation stored)
    rw [right.stored id between there, same]
  erased id operation stored dead := by
    obtain ⟨there, deadThere⟩ := left.erased id operation stored dead
    exact right.erased id operation there deadThere
  operands id earlier later found foundLater := by
    -- An operation that is live in the end was live all the way.
    obtain ⟨between, there, _⟩ := Option.map_eq_some_iff.mp
      (left.stored id earlier (stored?_of_operation? found))
    have live : middle.isLive id = true := by
      by_contra dead
      have deadLater := (right.erased id between there (Bool.eq_false_iff.mpr dead)).2
      rw [isLive_of_operation? foundLater] at deadLater
      cases deadLater
    have foundBetween := operation?_of_stored? there live
    rw [right.operands id between later foundBetween foundLater,
      left.operands id earlier between found foundBetween]

/-- A value that exists before and after has the type that it had. -/
theorem Continues.typeOf (continues_ : Continues start final) (held : start.holds value = true)
    (heldLater : final.holds value = true) : final.typeOf value = start.typeOf value := by
  cases value with
  | input index =>
    obtain ⟨type, typed⟩ := (start.holds_iff _).mp held
    rw [typed]
    rw [typeOf_input] at typed ⊢
    obtain ⟨declared, there, rfl⟩ := Option.map_eq_some_iff.mp typed
    rw [getElem?_of_begins continues_.inputs there]
    rfl
  | result id =>
    obtain ⟨earlier, found⟩ := (start.isLive_iff id).mp held
    obtain ⟨later, foundLater⟩ := (final.isLive_iff id).mp heldLater
    have same := continues_.stored id earlier (stored?_of_operation? found)
    rw [stored?_of_operation? foundLater, Option.map_some, Option.some.injEq] at same
    have type : later.type = earlier.type := congrArg (fun mold => mold.2.2.1) same
    rw [typeOf_result found, typeOf_result foundLater, type]

/-! ### Single changes -/

/-- The second graph comes from the first one by a change that handles survive. A stored operation
is altered only while it is live, and a place that comes to read another value reads one that
exists and has the type of the first. -/
structure Alters (before after : Graph) : Prop extends Continues before after where
  frozen : ∀ id operation, before.stored? id = some operation →
    after.stored? id = some operation ∨ before.isLive id = true ∧ after.isLive id = true
  moved : ∀ use value now, before.readAt? use = some value → after.readAt? use = some now →
    now = value ∨ after.holds now = true ∧ after.typeOf now = before.typeOf value

/-! ### Additions -/

/-- The second graph has all that the first one has, as it was, and perhaps more. -/
structure Includes (before after : Graph) : Prop where
  strictness : after.strictness = before.strictness
  names : before.names.entries.toList <+: after.names.entries.toList
  inputs : before.declaredInputs <+: after.declaredInputs
  outputs : before.outputs.toList <+: after.outputs.toList
  stored : ∀ id operation, before.stored? id = some operation →
    after.stored? id = some operation ∧ after.isLive id = before.isLive id
  typeOf : ∀ value, before.holds value = true → after.typeOf value = before.typeOf value

theorem Includes.operation?_eq (includes : Includes graph next) {earlier later : Operation}
    (found : graph.operation? id = some earlier) (foundLater : next.operation? id = some later) :
    later = earlier := by
  have kept := (includes.stored id earlier (stored?_of_operation? found)).1
  exact Option.some.inj ((stored?_of_operation? foundLater).symm.trans kept)

theorem Includes.continues (includes : Includes graph next) (wellFormed : graph.WellFormed) :
    graph.Continues next where
  strictness := includes.strictness
  names := includes.names
  inputs := includes.inputs
  outputs := by
    obtain ⟨added, same⟩ := includes.outputs
    refine ⟨added.map fun output => (output.name, next.typeOf output.value), ?_⟩
    rw [declaredOutputs, declaredOutputs, ← same, List.map_append, List.append_left_inj]
    refine List.map_congr_left fun output member => ?_
    rw [includes.typeOf _ (wellFormed.holds_of_output (List.mem_map_of_mem member))]
  stored id operation stored := by
    rw [(includes.stored id operation stored).1, Option.map_some]
  erased id operation stored dead := by
    obtain ⟨kept, live⟩ := includes.stored id operation stored
    exact ⟨kept, live.trans dead⟩
  operands id earlier later found foundLater := by
    cases includes.operation?_eq found foundLater
    exact List.map_congr_left fun value member =>
      includes.typeOf value (wellFormed.holds_of_reads ⟨_, found, member⟩)

theorem Includes.alters (includes : Includes graph next) (wellFormed : graph.WellFormed) :
    graph.Alters next where
  toContinues := includes.continues wellFormed
  frozen id operation stored := .inl (includes.stored id operation stored).1
  moved use value now read readLater := by
    refine .inl ?_
    cases use with
    | operand id index =>
      obtain ⟨earlier, found, there⟩ := Option.bind_eq_some_iff.mp read
      obtain ⟨later, foundLater, thereLater⟩ := Option.bind_eq_some_iff.mp readLater
      cases includes.operation?_eq found foundLater
      exact Option.some.inj (thereLater.symm.trans there)
    | output index =>
      rw [readAt?_output] at read readLater
      obtain ⟨output, there, same⟩ := Option.map_eq_some_iff.mp read
      rw [getElem?_of_begins includes.outputs there, Option.map_some, same] at readLater
      exact (Option.some.inj readLater).symm

theorem entries_intern (names : Names) (name : String) :
    names.entries.toList <+: (names.intern name).2.entries.toList := by
  unfold Names.intern
  split
  · exact List.prefix_rfl
  · exact ⟨[name], by simp [Arena.toList, Arena.push]⟩

theorem includes_addInput (graph : Graph) (name : String) (type : BitType) :
    Includes graph (graph.addInput name type).2 where
  strictness := rfl
  names := entries_intern _ _
  inputs := ⟨[((graph.names.intern name).1, type)],
    by simp [Graph.addInput, declaredInputs, Arena.toList, Arena.push]⟩
  outputs := List.prefix_rfl
  stored id operation stored := ⟨stored, rfl⟩
  typeOf value held := by
    cases value with
    | result id => rfl
    | input index =>
      have old : index ≠ graph.inputs.size := Nat.ne_of_lt (of_decide_eq_true held)
      simp only [Graph.addInput, Graph.typeOf]
      rw [Arena.get?_push_other _ _ _ old]

theorem includes_withOutput (graph : Graph) (name : String) (value : Value) :
    Includes graph (graph.withOutput name value) := by
  have frame := frame_changeUses { graph with
    names := (graph.names.intern name).2
    outputs := graph.outputs.push ⟨(graph.names.intern name).1, value⟩ } value
    (· ++ [.output graph.outputs.size])
  constructor
  case strictness => exact frame.strictness
  case names => exact frame.names.symm ▸ entries_intern graph.names name
  case inputs => exact frame.inputs.symm ▸ List.prefix_rfl
  case outputs =>
    rw [withOutput, outputs_changeUses]
    exact ⟨[⟨(graph.names.intern name).1, value⟩], by simp [Arena.toList, Arena.push]⟩
  case stored =>
    intro id operation stored
    constructor
    · rw [withOutput, stored?_changeUses]
      exact stored
    · rw [Bool.eq_iff_iff, isLive_iff, isLive_iff, operation?_withOutput]
  case typeOf => exact fun other _ => congrFun (typeOf_withOutput graph name value) other

theorem includes_addOutput (graph : Graph) (name : String) (value : Value) :
    Includes graph (graph.addOutput name value).state := by
  rcases graph.addOutput_cases name value with same | ⟨_, same⟩
  · rw [same]
    exact ⟨rfl, List.prefix_rfl, List.prefix_rfl, List.prefix_rfl,
      fun id operation stored => ⟨stored, rfl⟩, fun _ _ => rfl⟩
  · rw [same]
    exact graph.includes_withOutput name value

theorem includes_store (graph : Graph) (operation : Operation) :
    Includes graph (graph.store operation) where
  strictness := (graph.extends_store operation).strictness
  names := (graph.extends_store operation).names.symm ▸ List.prefix_rfl
  inputs := (graph.extends_store operation).inputs.symm ▸ List.prefix_rfl
  outputs := (graph.extends_store operation).outputs.symm ▸ List.prefix_rfl
  stored id other stored := by
    have below := lt_size_of_stored? stored
    exact ⟨(stored?_store graph operation below).trans stored, isLive_store graph operation below⟩
  typeOf value held := by
    obtain ⟨type, typed⟩ := (graph.holds_iff value).mp held
    rw [typed, (graph.extends_store operation).typeOf typed]

/-! ### Redirecting and dropping -/

section Redirecting

variable {type : BitType} (typedSource : graph.typeOf source = some type)
  (typedTarget : graph.typeOf target = some type)

include typedSource typedTarget in
theorem typeOf_substitute (value : Value) :
    graph.typeOf (Value.substitute source target value) = graph.typeOf value := by
  by_cases here : value = source
  · rw [here, Value.substitute_self, typedSource, typedTarget]
  · rw [Value.substitute_other here]

include typedSource typedTarget in
theorem continues_redirect (wellFormed : graph.WellFormed) :
    graph.Continues (graph.redirect source target) where
  strictness := (frame_redirect graph source target).strictness
  names := (frame_redirect graph source target).names.symm ▸ List.prefix_rfl
  inputs := (frame_redirect graph source target).inputs.symm ▸ List.prefix_rfl
  outputs := by
    rw [declaredOutputs, declaredOutputs, outputs_redirect wellFormed, List.map_map]
    simp only [Function.comp_def, typeOf_redirect wellFormed,
      typeOf_substitute typedSource typedTarget]
    exact List.prefix_rfl
  stored id operation stored := by
    cases live : graph.isLive id with
    | true =>
      have found := operation?_redirect wellFormed source target id
      rw [operation?_of_stored? stored live, Option.map_some] at found
      rw [stored?_of_operation? found, Option.map_some, Operation.mold_substitute]
    | false => rw [stored?_redirect_of_erased wellFormed live, stored, Option.map_some]
  erased id operation stored dead := by
    rw [stored?_redirect_of_erased wellFormed dead, isLive_redirect wellFormed]
    exact ⟨stored, dead⟩
  operands id earlier later found foundLater := by
    rw [operation?_redirect wellFormed, found, Option.map_some, Option.some.injEq] at foundLater
    rw [← foundLater, Operation.substitute, List.map_map]
    simp only [Function.comp_def, typeOf_redirect wellFormed,
      typeOf_substitute typedSource typedTarget]

include typedSource typedTarget in
theorem alters_redirect (wellFormed : graph.WellFormed) :
    graph.Alters (graph.redirect source target) where
  toContinues := continues_redirect typedSource typedTarget wellFormed
  frozen id operation stored := by
    rw [isLive_redirect wellFormed]
    cases live : graph.isLive id with
    | true => exact .inr ⟨rfl, rfl⟩
    | false => exact .inl ((stored?_redirect_of_erased wellFormed live _ _).trans stored)
  moved use value now read readLater := by
    rw [readAt?_redirect wellFormed, read, Option.map_some, Option.some.injEq] at readLater
    subst readLater
    by_cases here : value = source
    · rw [here, Value.substitute_self, holds_iff, typeOf_redirect wellFormed, typedSource]
      exact .inr ⟨⟨type, typedTarget⟩, typedTarget⟩
    · exact .inl (Value.substitute_other here)

end Redirecting

section Dropping

variable (wellFormed : graph.WellFormed) (unused : graph.uses (.result id) = [])
  (operation : Operation)

include wellFormed unused in
/-- What is dropped drives no output and is read by nothing. -/
theorem typeOf_drop_of_read {use : Use} (read : graph.readAt? use = some value) :
    (graph.drop id operation).typeOf value = graph.typeOf value := by
  refine typeOf_drop graph id operation ?_
  rintro rfl
  have member := (wellFormed.mem_uses_iff _ use).mpr read
  rw [unused] at member
  cases member

theorem isLive_of_drop {other : Nat} (live : (graph.drop id operation).isLive other = true) :
    graph.isLive other = true := by
  obtain ⟨kept, found⟩ := (isLive_iff _ other).mp live
  exact isLive_of_operation? ((graph.extends_drop id operation).operation? other kept found)

include wellFormed unused in
theorem continues_drop : graph.Continues (graph.drop id operation) where
  strictness := (graph.extends_drop id operation).strictness.symm
  names := (graph.extends_drop id operation).names ▸ List.prefix_rfl
  inputs := (graph.extends_drop id operation).inputs ▸ List.prefix_rfl
  outputs := by
    have same : (graph.drop id operation).declaredOutputs = graph.declaredOutputs := by
      rw [declaredOutputs, declaredOutputs, ← (graph.extends_drop id operation).outputs]
      refine List.map_congr_left fun output member => ?_
      obtain ⟨index, there⟩ := List.getElem?_of_mem member
      have read : graph.readAt? (.output index) = some output.value := by
        rw [readAt?_output, there, Option.map_some]
      rw [typeOf_drop_of_read wellFormed unused operation read]
    exact same ▸ List.prefix_rfl
  stored other kept stored := by
    rw [stored?_drop, stored, Option.map_some]
  erased other kept stored dead := by
    rw [stored?_drop]
    refine ⟨stored, Bool.eq_false_iff.mpr fun live => ?_⟩
    rw [isLive_of_drop operation live] at dead
    cases dead
  operands other earlier later found foundLater := by
    cases ((graph.extends_drop id operation).operation? other later foundLater).symm.trans found
    refine List.map_congr_left fun value member => ?_
    obtain ⟨index, there⟩ := List.getElem?_of_mem member
    exact typeOf_drop_of_read wellFormed unused operation
      ((readAt?_operand found index).trans there)

include wellFormed unused in
theorem alters_drop : graph.Alters (graph.drop id operation) where
  toContinues := continues_drop wellFormed unused operation
  frozen other kept stored := .inl ((stored?_drop graph id operation other).trans stored)
  moved use value now read readLater := by
    refine .inl ?_
    rw [readAt?_drop] at readLater
    cases use with
    | operand other index =>
      simp only at readLater
      split at readLater
      · cases readLater
      · exact Option.some.inj (readLater.symm.trans read)
    | output index => exact Option.some.inj (readLater.symm.trans read)

end Dropping

/-! ### Histories -/

theorem Change.alters (change : graph.Change next) (wellFormed : graph.WellFormed) :
    graph.Alters next := by
  cases change with
  | store operation _ => exact (graph.includes_store operation).alters wellFormed
  | redirect _ typedSource typedTarget =>
    exact alters_redirect typedSource typedTarget wellFormed
  | @drop id operation _ unused => exact alters_drop wellFormed unused operation

theorem Changes.alters (changes : graph.Changes next) (wellFormed : graph.WellFormed) :
    Relation.ReflTransGen Alters graph next := by
  induction changes with
  | refl => exact .refl
  | tail before change inductionHypothesis =>
    exact inductionHypothesis.tail (change.alters (Changes.wellFormed before wellFormed))

theorem Step.alters (step : graph.Step next) (wellFormed : graph.WellFormed) :
    Relation.ReflTransGen Alters graph next := by
  rcases step.cases_changes wellFormed with ⟨name, type, rfl⟩ | ⟨name, value, rfl⟩ | changes
  · exact .single ((graph.includes_addInput name type).alters wellFormed)
  · exact .single ((graph.includes_addOutput name value).alters wellFormed)
  · exact changes.alters wellFormed

theorem Reachable.leads (reachable : start.Reachable) (leads : start.Leads final) :
    final.Reachable := by
  obtain ⟨strictness, before⟩ := reachable
  exact ⟨strictness, before.trans leads⟩

/-- A history is made of single changes that handles survive. -/
theorem Leads.alters (leads : start.Leads final) (reachable : start.Reachable) :
    Relation.ReflTransGen Alters start final := by
  induction leads with
  | start => exact .refl
  | step before step inductionHypothesis =>
    exact inductionHypothesis.trans (step.alters (reachable.leads before).wellFormed)

theorem Leads.continues (leads : start.Leads final) (reachable : start.Reachable) :
    start.Continues final := by
  have alters := leads.alters reachable
  clear leads
  induction alters with
  | refl => exact .refl start
  | tail _ last inductionHypothesis => exact inductionHypothesis.trans last.toContinues

/-- Over any history, an operation that was stored keeps its kind, its attribute, its result type
and its number of operands; one that was erased stays erased and keeps its operands; a place
that still reads something reads a value that exists and has the type of the one it read; a value
has one type for as long as it exists; inputs, outputs and names are only added, and outputs keep
the types of their values. The history is made of changes that alter operations only while they
are live and let a place read only values of its type that exist. -/
theorem Leads.handles_stable (leads : start.Leads final) (reachable : start.Reachable) :
    (∀ id operation, start.stored? id = some operation →
      ∃ later, final.stored? id = some later ∧ later.kind = operation.kind ∧
        later.attr = operation.attr ∧ later.type = operation.type ∧
        later.operands.length = operation.operands.length) ∧
    (∀ id operation, start.stored? id = some operation → start.isLive id = false →
      final.isLive id = false ∧ final.stored? id = some operation) ∧
    (∀ use value now, start.readAt? use = some value → final.readAt? use = some now →
      final.holds now = true ∧ final.typeOf now = start.typeOf value) ∧
    (∀ value, start.holds value = true → final.holds value = true →
      final.typeOf value = start.typeOf value) ∧
    start.names.entries.toList <+: final.names.entries.toList ∧
    start.declaredInputs <+: final.declaredInputs ∧
    start.declaredOutputs <+: final.declaredOutputs ∧
    Relation.ReflTransGen Alters start final := by
  have continues_ := leads.continues reachable
  refine ⟨fun id operation stored => ?_, fun id operation stored dead => ?_,
    fun use value now read readLater => ⟨?_, ?_⟩, fun value => continues_.typeOf,
    continues_.names, continues_.inputs, continues_.outputs, leads.alters reachable⟩
  · obtain ⟨later, there, same⟩ :=
      Option.map_eq_some_iff.mp (continues_.stored id operation stored)
    simp only [Operation.mold, Prod.mk.injEq] at same
    exact ⟨later, there, same⟩
  · exact (continues_.erased id operation stored dead).symm
  · exact (reachable.leads leads).wellFormed.holds_of_readAt? use now readLater
  · cases use with
    | operand id index =>
      obtain ⟨earlier, found, there⟩ := Option.bind_eq_some_iff.mp read
      obtain ⟨later, foundLater, thereLater⟩ := Option.bind_eq_some_iff.mp readLater
      have same := congrArg (·[index]?) (continues_.operands id earlier later found foundLater)
      simp only [List.getElem?_map, there, thereLater, Option.map_some, Option.some.injEq] at same
      exact same
    | output index =>
      rw [readAt?_output] at read readLater
      obtain ⟨output, there, rfl⟩ := Option.map_eq_some_iff.mp read
      obtain ⟨later, thereLater, rfl⟩ := Option.map_eq_some_iff.mp readLater
      have declared : start.declaredOutputs[index]? =
          some (output.name, start.typeOf output.value) := by
        rw [declaredOutputs, List.getElem?_map, there, Option.map_some]
      have same := getElem?_of_begins continues_.outputs declared
      rw [declaredOutputs, List.getElem?_map, thereLater, Option.map_some,
        Option.some.injEq] at same
      exact congrArg Prod.snd same

/-- The mask is made to read the input in the place of the quotient, which has the same type. The
quotient can then be erased, and it stays what it was whatever happens later. -/
theorem handles_maskedQuotient :
    let final := ((maskedQuotient.replaceUses (.result 1) (.input 0)).state.erase 1).state
    maskedQuotient.Reachable ∧ maskedQuotient.Leads final ∧
      maskedQuotient.readAt? (.operand 2 0) = some (.result 1) ∧
      final.readAt? (.operand 2 0) = some (.input 0) ∧
      final.typeOf (.input 0) = maskedQuotient.typeOf (.result 1) ∧
      ∀ later, final.Leads later → later.isLive 1 = false ∧
        later.stored? 1 = some ⟨.div, [.input 0, .result 0], .none, byte⟩ := by
  intro final
  have leads : maskedQuotient.Leads final := .step (.step .start (.replaceUses _ _)) (.erase _)
  obtain ⟨_, _, moved, _⟩ := leads.handles_stable reachable_maskedQuotient
  refine ⟨reachable_maskedQuotient, leads, by decide, by decide,
    (moved (.operand 2 0) (.result 1) (.input 0) (by decide) (by decide)).2, ?_⟩
  intro later more
  obtain ⟨_, erased, _⟩ := more.handles_stable (reachable_maskedQuotient.leads leads)
  exact erased 1 _ (by decide) (by decide)

end Graph

end BitGraph
