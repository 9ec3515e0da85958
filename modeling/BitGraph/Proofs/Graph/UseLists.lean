/-
This file proves that the parts of a graph stay together. Declaring, storing,
redirecting and dropping keep the use lists exact: each holds the places that
read its value, all of them, and none twice. From that it follows that live
operations and outputs go on reading values that exist, and that operations
stay well formed.
-/

import BitGraph.Proofs.Graph.Contents

namespace BitGraph.Graph

/-! ### The places an operation reads from -/

theorem mem_readings_iff (id : Nat) (operation : Operation) (value : Value) (use : Use) :
    (value, use) ∈ readings id operation ↔
      ∃ index, operation.operands[index]? = some value ∧ use = .operand id index := by
  simp only [readings, List.mem_map, Prod.exists, List.mem_zipIdx_iff_getElem?, Prod.mk.injEq]
  constructor
  · rintro ⟨value, index, here, rfl, rfl⟩
    exact ⟨index, here, rfl⟩
  · rintro ⟨index, here, rfl⟩
    exact ⟨value, index, here, rfl, rfl⟩

theorem mem_filter_readings_iff (id : Nat) (operation : Operation) (value : Value) (use : Use) :
    use ∈ ((readings id operation).filter (·.1 = value)).map Prod.snd ↔
      ∃ index, operation.operands[index]? = some value ∧ use = .operand id index := by
  rw [← mem_readings_iff]
  simp

theorem nodup_readings (id : Nat) (operation : Operation) :
    ((readings id operation).map Prod.snd).Nodup := by
  have indices : (readings id operation).map Prod.snd =
      (List.range' 0 operation.operands.length).map (Use.operand id) := by
    rw [readings, List.map_map, ← List.zipIdx_map_snd, List.map_map]
    rfl
  rw [indices]
  refine List.Nodup.map (fun first second same => ?_) List.nodup_range'
  cases same
  rfl

/-! ### Declaring -/

theorem WellFormed.addInput {graph : Graph} (wellFormed : graph.WellFormed) (name : String)
    (type : BitType) : (graph.addInput name type).2.WellFormed := by
  have sameUses : ∀ value, (graph.addInput name type).2.uses value = graph.uses value := by
    intro value
    cases value with
    | result id => rfl
    | input index =>
      by_cases new : index = graph.inputs.size
      · have unknown : graph.inputs.get? graph.inputs.size = none := by
          rw [← Option.not_isSome_iff_eq_none, Arena.isSome_get?_iff]
          exact Nat.lt_irrefl _
        simp [Graph.addInput, uses, new, unknown]
      · simp only [Graph.addInput, uses]
        rw [Arena.get?_push_other _ _ _ new]
  have sameType : ∀ value, graph.holds value = true →
      (graph.addInput name type).2.typeOf value = graph.typeOf value := by
    intro value held
    cases value with
    | result id => rfl
    | input index =>
      have old : index ≠ graph.inputs.size := Nat.ne_of_lt (of_decide_eq_true held)
      simp only [Graph.addInput, typeOf]
      rw [Arena.get?_push_other _ _ _ old]
  have sameRead : ∀ use, (graph.addInput name type).2.readAt? use = graph.readAt? use := by
    intro use
    cases use <;> rfl
  constructor
  case nodup_uses => exact fun value => sameUses value ▸ wellFormed.nodup_uses value
  case mem_uses_iff =>
    intro value use
    rw [sameUses, sameRead]
    exact wellFormed.mem_uses_iff value use
  case holds_of_readAt? =>
    intro use value read
    have held := wellFormed.holds_of_readAt? use value (sameRead use ▸ read)
    rw [holds_iff, sameType value held, ← holds_iff]
    exact held
  case verified =>
    intro id operation found
    have verified := wellFormed.verified id operation found
    refine Operation.verify_of_typeOf verified fun value member => sameType value ?_
    exact (graph.holds_iff value).mpr (Operation.exists_type_of_verify verified member)

/-- The graph with one more output. -/
def withOutput (graph : Graph) (name : String) (value : Value) : Graph :=
  let (id, names) := graph.names.intern name
  changeUses { graph with names, outputs := graph.outputs.push ⟨id, value⟩ } value
    (· ++ [.output graph.outputs.size])

theorem addOutput_of_holds {graph : Graph} {value : Value} (held : graph.holds value = true)
    (name : String) : graph.addOutput name value = .succeed () (graph.withOutput name value) :=
  if_pos held

theorem typeOf_withOutput (graph : Graph) (name : String) (value : Value) :
    (graph.withOutput name value).typeOf = graph.typeOf := by
  rw [withOutput, typeOf_changeUses]
  funext other
  cases other <;> rfl

theorem operation?_withOutput (graph : Graph) (name : String) (value : Value) (id : Nat) :
    (graph.withOutput name value).operation? id = graph.operation? id := by
  rw [withOutput, operation?_changeUses]
  rfl

theorem uses_withOutput {graph : Graph} {value : Value} (held : graph.holds value = true)
    (name : String) (other : Value) :
    (graph.withOutput name value).uses other =
      if other = value then graph.uses other ++ [.output graph.outputs.size]
      else graph.uses other := by
  generalize declared : ({ graph with
    names := (graph.names.intern name).2
    outputs := graph.outputs.push ⟨(graph.names.intern name).1, value⟩ } : Graph) = before
  have sameUses : ∀ other, before.uses other = graph.uses other := fun other => by
    rw [← declared]
    cases other <;> rfl
  have heldBefore : before.holds value = true := by
    rw [← declared, ← held]
    cases value <;> rfl
  have same : graph.withOutput name value =
      before.changeUses value (· ++ [.output graph.outputs.size]) := by rw [← declared]; rfl
  rw [same]
  split
  · rename_i here
    rw [here, uses_changeUses_self _ _ _ heldBefore, sameUses]
  · rename_i apart
    rw [uses_changeUses_other _ _ _ _ apart, sameUses]

theorem readAt?_withOutput (graph : Graph) (name : String) (value : Value) (use : Use) :
    (graph.withOutput name value).readAt? use =
      if use = .output graph.outputs.size then some value else graph.readAt? use := by
  rw [withOutput, readAt?_changeUses]
  cases use with
  | operand id index => rfl
  | output index =>
    by_cases here : index = graph.outputs.size
    · simp [readAt?, here]
    · simp [readAt?, here, Arena.get?_push_other _ _ _ here]

/-- No value counts an output among its readers that was not declared. -/
theorem WellFormed.undeclared {graph : Graph} (wellFormed : graph.WellFormed) (value : Value) :
    .output graph.outputs.size ∉ graph.uses value := by
  have unread : graph.readAt? (.output graph.outputs.size) = none := by
    rw [readAt?, ← Option.not_isSome_iff_eq_none, Option.isSome_map, Arena.isSome_get?_iff]
    exact Nat.lt_irrefl _
  rw [wellFormed.mem_uses_iff, unread]
  intro impossible
  cases impossible

theorem WellFormed.addOutput {graph : Graph} (wellFormed : graph.WellFormed) (name : String)
    (value : Value) : (graph.addOutput name value).state.WellFormed := by
  by_cases held : graph.holds value = true
  case neg => rwa [Graph.addOutput, if_neg held]
  rw [addOutput_of_holds held name]
  show (graph.withOutput name value).WellFormed
  have fresh := wellFormed.undeclared
  constructor
  case nodup_uses =>
    intro other
    rw [uses_withOutput held]
    split
    · exact (wellFormed.nodup_uses other).append (List.nodup_singleton _)
        (List.disjoint_singleton.mpr (fresh other))
    · exact wellFormed.nodup_uses other
  case mem_uses_iff =>
    intro other use
    rw [uses_withOutput held, readAt?_withOutput]
    by_cases here : use = .output graph.outputs.size
    · subst here
      by_cases driven : other = value
      · simp [driven]
      · simp [driven, fresh, Ne.symm driven]
    · by_cases driven : other = value
      · simp [driven, here, wellFormed.mem_uses_iff]
      · simp [driven, here, wellFormed.mem_uses_iff]
  case holds_of_readAt? =>
    intro use other read
    rw [holds_iff, typeOf_withOutput, ← holds_iff]
    rw [readAt?_withOutput] at read
    split at read
    · cases read
      exact held
    · exact wellFormed.holds_of_readAt? use other read
  case verified =>
    intro id operation found
    rw [operation?_withOutput] at found
    have strictness : (graph.withOutput name value).strictness = graph.strictness := by
      rw [withOutput, (frame_changeUses _ _ _).strictness]
    rw [strictness]
    exact Operation.verify_of_typeOf (wellFormed.verified id operation found) fun other _ =>
      congrFun (typeOf_withOutput graph name value) other

/-! ### Storing -/

theorem uses_store {graph : Graph} {operation : Operation}
    (verified : operation.verify graph.scope graph.strictness = .ok ()) (value : Value) :
    (graph.store operation).uses value = graph.uses value ++
      ((readings graph.nodes.size operation).filter (·.1 = value)).map Prod.snd := by
  have pushed : ∀ value, ({ graph with nodes := graph.nodes.push ⟨operation, true, []⟩ } :
      Graph).uses value = graph.uses value := by
    intro value
    cases value with
    | input index => rfl
    | result id =>
      by_cases new : id = graph.nodes.size
      · have unknown : graph.nodes.get? graph.nodes.size = none := by
          rw [← Option.not_isSome_iff_eq_none, Arena.isSome_get?_iff]
          exact Nat.lt_irrefl _
        simp [uses, new, unknown]
      · simp only [uses]
        rw [Arena.get?_push_other _ _ _ new]
  have held : ({ graph with nodes := graph.nodes.push ⟨operation, true, []⟩ } :
      Graph).holds value = true ∨ ∀ pair ∈ readings graph.nodes.size operation,
        pair.1 ≠ value := by
    by_cases read : value ∈ operation.operands
    · refine Or.inl ((holds_iff _ _).mpr ?_)
      obtain ⟨type, typed⟩ := Operation.exists_type_of_verify verified read
      cases value with
      | input index => exact ⟨type, typed⟩
      | result id =>
        obtain ⟨stored, found, same⟩ := Option.map_eq_some_iff.mp typed
        refine ⟨type, ?_⟩
        have old : id ≠ graph.nodes.size := Nat.ne_of_lt (lt_size_of_operation? found)
        simp only [typeOf, operation?]
        rw [Arena.get?_push_other _ _ _ old]
        exact typed
    · refine Or.inr fun pair member same => read ?_
      obtain ⟨index, here, _⟩ := (mem_readings_iff _ _ pair.1 pair.2).mp member
      exact same ▸ List.mem_of_getElem? here
  have folded := uses_foldl_changeUses (fun use uses => uses ++ [use])
    (readings graph.nodes.size operation) _ value held
  have appended : ∀ (added uses : List Use),
      added.foldl (fun uses use => uses ++ [use]) uses = uses ++ added := by
    intro added
    induction added with
    | nil => exact fun uses => (List.append_nil uses).symm
    | cons use rest inductionHypothesis =>
      intro uses
      rw [List.foldl_cons, inductionHypothesis, List.append_assoc]
      rfl
  rw [appended, pushed] at folded
  exact folded

theorem readAt?_store (graph : Graph) (operation : Operation) (use : Use) :
    (graph.store operation).readAt? use =
      match use with
      | .operand id index =>
        if id = graph.nodes.size then operation.operands[index]? else graph.readAt? use
      | .output _ => graph.readAt? use := by
  cases use with
  | output index => simp only [readAt?, (graph.extends_store operation).outputs]
  | operand id index =>
    simp only [readAt?, operation?_store]
    split <;> rfl

theorem WellFormed.store {graph : Graph} (wellFormed : graph.WellFormed) {operation : Operation}
    (verified : operation.verify graph.scope graph.strictness = .ok ()) :
    (graph.store operation).WellFormed where
  nodup_uses value := by
    rw [uses_store verified]
    refine List.Nodup.append (wellFormed.nodup_uses value)
      ((nodup_readings _ _).sublist (List.filter_sublist.map _)) ?_
    intro use old new
    obtain ⟨index, _, rfl⟩ := (mem_filter_readings_iff _ _ _ _).mp new
    have read := (wellFormed.mem_uses_iff value _).mp old
    rw [readAt?, operation?_size] at read
    cases read
  mem_uses_iff value use := by
    rw [uses_store verified, List.mem_append, wellFormed.mem_uses_iff,
      mem_filter_readings_iff, readAt?_store]
    cases use with
    | output index => simp
    | operand id index =>
      by_cases new : id = graph.nodes.size
      · have unread : graph.readAt? (.operand graph.nodes.size index) = none := by
          rw [readAt?, operation?_size]
          rfl
        simp [new, unread]
      · simp [new]
  holds_of_readAt? use value read := by
    rw [readAt?_store] at read
    refine (graph.extends_store operation).holds ?_
    cases use with
    | output index => exact wellFormed.holds_of_readAt? _ _ read
    | operand id index =>
      simp only at read
      split at read
      · exact (graph.holds_iff value).mpr
          (Operation.exists_type_of_verify verified (List.mem_of_getElem? read))
      · exact wellFormed.holds_of_readAt? _ _ read
  verified id stored found := by
    have kept : ∀ stored : Operation, stored.verify graph.scope graph.strictness = .ok () →
        stored.verify (graph.store operation).scope (graph.store operation).strictness =
          .ok () := by
      intro stored known
      rw [(graph.extends_store operation).strictness]
      refine Operation.verify_of_typeOf known fun value member => ?_
      obtain ⟨type, typed⟩ := Operation.exists_type_of_verify known member
      exact ((graph.extends_store operation).typeOf typed).trans typed.symm
    rw [operation?_store] at found
    split at found
    · cases found
      exact kept _ verified
    · exact kept _ (wellFormed.verified id stored found)

/-! ### Redirecting -/

theorem uses_redirect (graph : Graph) {source target : Value} (apart : source ≠ target)
    (heldSource : graph.holds source = true) (heldTarget : graph.holds target = true)
    (value : Value) :
    (graph.redirect source target).uses value =
      if value = source then []
      else if value = target then graph.uses target ++ graph.uses source
      else graph.uses value := by
  have emptied : ∀ value, ((graph.uses source).foldl (retarget target)
      (graph.changeUses source fun _ => [])).uses value =
        if value = source then [] else graph.uses value := by
    intro value
    rw [(foldl_retarget_same target _ _).2.1]
    split
    · rename_i here
      rw [here, uses_changeUses_self _ _ _ heldSource]
    · rename_i other
      rw [uses_changeUses_other _ _ _ _ other]
  by_cases here : value = target
  · have held : ((graph.uses source).foldl (retarget target)
        (graph.changeUses source fun _ => [])).holds target = true := by
      rw [holds_iff] at heldTarget ⊢
      obtain ⟨type, typed⟩ := heldTarget
      refine ⟨type, ?_⟩
      cases target with
      | input index =>
        rw [(foldl_retarget_same _ _ _).1.typeOf_input, typeOf_changeUses, typed]
      | result id =>
        rw [typeOf, operation?_foldl_retarget, operation?_changeUses, Option.map_map]
        exact typed
    rw [here, if_neg (Ne.symm apart), if_pos rfl, redirect, uses_changeUses_self _ _ _ held,
      emptied, if_neg (Ne.symm apart)]
  · rw [redirect, uses_changeUses_other _ _ _ _ here, emptied, if_neg here]

theorem mem_uses_redirect (graph : Graph) {source target : Value} (apart : source ≠ target)
    (heldSource : graph.holds source = true) (heldTarget : graph.holds target = true)
    (value : Value) (use : Use) :
    use ∈ (graph.redirect source target).uses value ↔
      value ≠ source ∧ (use ∈ graph.uses value ∨ value = target ∧ use ∈ graph.uses source) := by
  rw [uses_redirect graph apart heldSource heldTarget]
  by_cases ofSource : value = source
  · simp [ofSource]
  · by_cases ofTarget : value = target
    · simp [ofTarget, Ne.symm apart]
    · simp [ofSource, ofTarget]

theorem readAt?_redirect {graph : Graph} (wellFormed : graph.WellFormed) (source target : Value)
    (use : Use) :
    (graph.redirect source target).readAt? use =
      (graph.readAt? use).map (Value.substitute source target) := by
  cases use with
  | output index =>
    rw [readAt?_output, readAt?_output, outputs_redirect wellFormed, List.getElem?_map,
      Option.map_map, Option.map_map]
    rfl
  | operand id index =>
    rw [readAt?, readAt?, operation?_redirect wellFormed]
    cases graph.operation? id with
    | none => rfl
    | some operation => exact List.getElem?_map

theorem WellFormed.redirect {graph : Graph} (wellFormed : graph.WellFormed)
    {source target : Value} (apart : source ≠ target) {type : BitType}
    (typedSource : graph.typeOf source = some type)
    (typedTarget : graph.typeOf target = some type) :
    (graph.redirect source target).WellFormed := by
  have heldSource := (graph.holds_iff source).mpr ⟨type, typedSource⟩
  have heldTarget := (graph.holds_iff target).mpr ⟨type, typedTarget⟩
  have sameHolds : ∀ value, (graph.redirect source target).holds value = graph.holds value := by
    intro value
    rw [Bool.eq_iff_iff, holds_iff, holds_iff, typeOf_redirect wellFormed]
  constructor
  case nodup_uses =>
    intro value
    rw [uses_redirect graph apart heldSource heldTarget]
    split
    · exact List.nodup_nil
    · split
      · refine List.Nodup.append (wellFormed.nodup_uses _) (wellFormed.nodup_uses _) ?_
        intro use ofTarget ofSource
        rw [wellFormed.mem_uses_iff] at ofTarget ofSource
        exact apart (Option.some.inj (ofSource.symm.trans ofTarget))
      · exact wellFormed.nodup_uses value
  case mem_uses_iff =>
    intro value use
    rw [mem_uses_redirect graph apart heldSource heldTarget, readAt?_redirect wellFormed,
      wellFormed.mem_uses_iff, wellFormed.mem_uses_iff]
    cases graph.readAt? use with
    | none => simp
    | some now =>
      simp only [Option.map_some, Option.some.injEq, Value.substitute_eq_iff apart]
  case holds_of_readAt? =>
    intro use value read
    rw [readAt?_redirect wellFormed] at read
    obtain ⟨now, readNow, rfl⟩ := Option.map_eq_some_iff.mp read
    rw [sameHolds, Value.substitute]
    split
    · exact heldTarget
    · exact wellFormed.holds_of_readAt? use now readNow
  case verified =>
    intro id operation found
    rw [operation?_redirect wellFormed] at found
    obtain ⟨before, foundBefore, rfl⟩ := Option.map_eq_some_iff.mp found
    rw [(frame_redirect graph source target).strictness]
    refine Operation.verify_of_typeOf (Operation.verify_substitute
      (wellFormed.verified id before foundBefore) (typedTarget.trans typedSource.symm)) ?_
    exact fun value _ => typeOf_redirect wellFormed source target value

/-! ### Dropping -/

theorem typeOf_drop (graph : Graph) (id : Nat) (operation : Operation) {value : Value}
    (other : value ≠ .result id) :
    (graph.drop id operation).typeOf value = graph.typeOf value := by
  cases value with
  | input index => exact ((graph.extends_drop id operation).typeOf_input index).symm
  | result number =>
    have differs : number ≠ id := fun same => other (congrArg Value.result same)
    rw [typeOf, typeOf, operation?_drop, if_neg differs]

theorem uses_drop {graph : Graph} (wellFormed : graph.WellFormed) {id : Nat}
    {operation : Operation} (found : graph.operation? id = some operation) (value : Value) :
    (graph.drop id operation).uses value = (graph.uses value).filter
      (· ∉ ((readings id operation).filter (·.1 = value)).map Prod.snd) := by
  have held : graph.holds value = true ∨ ∀ pair ∈ readings id operation, pair.1 ≠ value := by
    by_cases read : value ∈ operation.operands
    · obtain ⟨index, here⟩ := List.mem_iff_getElem?.mp read
      exact Or.inl (wellFormed.holds_of_readAt? (.operand id index) value
        ((readAt?_operand found index).trans here))
    · refine Or.inr fun pair member same => read ?_
      obtain ⟨index, here, _⟩ := (mem_readings_iff _ _ pair.1 pair.2).mp member
      exact same ▸ List.mem_of_getElem? here
  have filtered : ∀ (dropped uses : List Use),
      dropped.foldl (fun uses use => uses.filter (· ≠ use)) uses =
        uses.filter (· ∉ dropped) := by
    intro dropped
    induction dropped with
    | nil => simp
    | cons use rest inductionHypothesis =>
      intro uses
      rw [List.foldl_cons, inductionHypothesis, List.filter_filter]
      refine List.filter_congr fun other _ => ?_
      simp [Bool.and_comm]
  have unmarked : ∀ graph : Graph, ({ graph with
      nodes := graph.nodes.modify id fun node => { node with live := false } } : Graph).uses
        value = graph.uses value := by
    intro graph
    cases value with
    | input index => rfl
    | result number =>
      simp only [uses]
      by_cases here : number = id
      · subst here
        simp [Function.comp_def]
      · rw [Arena.get?_modify_other _ _ _ _ here]
  have folded := uses_foldl_changeUses (fun use uses => uses.filter (· ≠ use))
    (readings id operation) graph value held
  rw [filtered] at folded
  exact (unmarked _).trans folded

theorem readAt?_drop (graph : Graph) (id : Nat) (operation : Operation) (use : Use) :
    (graph.drop id operation).readAt? use =
      match use with
      | .operand other _ => if other = id then none else graph.readAt? use
      | .output _ => graph.readAt? use := by
  cases use with
  | output index => simp only [readAt?, (graph.extends_drop id operation).outputs]
  | operand other index =>
    simp only [readAt?, operation?_drop]
    split <;> rfl

theorem WellFormed.drop {graph : Graph} (wellFormed : graph.WellFormed) {id : Nat}
    {operation : Operation} (found : graph.operation? id = some operation)
    (unused : graph.uses (.result id) = []) : (graph.drop id operation).WellFormed := by
  have unread : ∀ use value, graph.readAt? use = some value → value ≠ .result id := by
    rintro use _ read rfl
    have member := (wellFormed.mem_uses_iff _ use).mpr read
    rw [unused] at member
    cases member
  have readBefore : ∀ use value, (graph.drop id operation).readAt? use = some value →
      graph.readAt? use = some value := by
    intro use value read
    rw [readAt?_drop] at read
    cases use with
    | output index => exact read
    | operand other index =>
      simp only at read
      split at read
      · cases read
      · exact read
  constructor
  case nodup_uses =>
    intro value
    rw [uses_drop wellFormed found]
    exact (wellFormed.nodup_uses value).filter _
  case mem_uses_iff =>
    intro value use
    rw [uses_drop wellFormed found, List.mem_filter, wellFormed.mem_uses_iff, readAt?_drop,
      decide_eq_true_iff, mem_filter_readings_iff]
    cases use with
    | output index => simp
    | operand other index =>
      by_cases here : other = id
      · subst here
        simp only [if_pos, readAt?_operand found]
        simp
      · simp [here]
  case holds_of_readAt? =>
    intro use value read
    have before := readBefore use value read
    have held := wellFormed.holds_of_readAt? use value before
    rw [holds_iff] at held ⊢
    rwa [typeOf_drop _ _ _ (unread use value before)]
  case verified =>
    intro other kept foundAfter
    have foundBefore := (graph.extends_drop id operation).operation? other kept foundAfter
    rw [← (graph.extends_drop id operation).strictness]
    refine Operation.verify_of_typeOf (wellFormed.verified other kept foundBefore) ?_
    intro value member
    obtain ⟨index, here⟩ := List.mem_iff_getElem?.mp member
    exact typeOf_drop _ _ _
      (unread (.operand other index) value ((readAt?_operand foundBefore index).trans here))

end BitGraph.Graph
