/-
This file proves that a pass brings operations to rest. Whether an operation is at
rest is seen from what it reads, and none of that changes once the operation was
visited: those that are still to be visited are not read by it, and a new operation
reads what the one it replaces has read, at once or through one more operation. So
bringing operands into canonical order is done after one pass, since what is
proposed for an operation is in canonical order.
-/

import BitGraph.Proofs.Proposal.Refolding
import BitGraph.Proofs.Simplify.Idling

namespace BitGraph

/-! ### Canonical operations -/

section Canonical

variable {before after : Scope} {operation : Operation} {algebra : Algebra}

/-- The canonical form of operands depends only on which of them are which constants. -/
theorem canonicalOperands_congr {operands : List Value}
    (same : ∀ value ∈ operands, after.constant? value = before.constant? value) :
    canonicalOperands algebra after operands = canonicalOperands algebra before operands := by
  have variables_ : operands.filter (fun value => !(after.constant? value).isSome) =
      operands.filter fun value => !(before.constant? value).isSome :=
    List.filter_congr fun value member => by rw [same value member]
  have constants : operands.filter (fun value => (after.constant? value).isSome) =
      operands.filter fun value => (before.constant? value).isSome :=
    List.filter_congr fun value member => by rw [same value member]
  have tail : ∀ constants ⊆ operands,
      canonicalTail algebra after constants = canonicalTail algebra before constants := by
    intro constants subset
    have known : constants.filterMap after.constant? = constants.filterMap before.constant? :=
      List.filterMap_congr fun value member => same value (subset member)
    match constants, known with
    | [], _ => rfl
    | [single], _ => rfl
    | _ :: _ :: _, known => simp only [canonicalTail, known]
  simp only [canonicalOperands, variables_, constants]
  rw [tail _ (List.filter_subset_self _)]

theorem canonicalize_congr
    (same : ∀ value ∈ operation.operands, after.constant? value = before.constant? value) :
    operation.canonicalize after = operation.canonicalize before := by
  unfold Operation.canonicalize
  simp only [canonicalOperands_congr same]

theorem canonicalize_of_constant (kind : operation.kind = .constant) (scope : Scope) :
    operation.canonicalize scope = none := by
  unfold Operation.canonicalize
  rw [kind]
  rfl

/-- Nothing is proposed for an operation that is in canonical order. -/
theorem canonicalize_of_canonical (known : operation.kind.algebra? = some algebra)
    (canonical : canonicalOperands algebra before operation.operands =
      some (operation.operands.map .existing)) :
    operation.canonicalize before = none := by
  unfold Operation.canonicalize
  simp only [known, canonical, if_true]
  split <;> rfl

/-- What is proposed reads nothing that the operation does not read. -/
theorem mem_operands_of_canonicalize {replacement : Replacement}
    (proposed : operation.canonicalize before = some replacement) {value : Value}
    (mentioned : value ∈ replacement.values) : value ∈ operation.operands := by
  obtain ⟨algebra, canonical, known, found, _, rfl⟩ := canonicalize_eq_some proposed
  unfold Operation.ofCanonical at mentioned
  split at mentioned
  · rw [List.mem_singleton.mp mentioned]
    exact mem_of_existing_canonical found (List.mem_singleton_self _)
  · cases mentioned
  · obtain ⟨operand, inside, isValue⟩ := List.mem_filterMap.mp mentioned
    cases operand with
    | existing other =>
      cases isValue
      exact mem_of_existing_canonical found inside
    | pending bits => cases isValue

/-- A value that stands for an operand is constant if the operand is. -/
def Operand.KeepsConstant (before after : Scope) : Operand → Value → Prop
  | .existing named, value => value = named ∧ after.constant? value = before.constant? value
  | .pending _, value => (after.constant? value).isSome = true

theorem Operand.Placed.keepsConstant {operand : Operand} {value : Value}
    (placed : operand.Placed before after value) : operand.KeepsConstant before after value := by
  cases operand with
  | existing named => exact ⟨placed.1, placed.1 ▸ placed.2.constant?⟩
  | pending bits => exact Option.isSome_of_eq_some placed

theorem TailRule.length_le {constants : List Value} {tail : List Operand}
    (rule : TailRule algebra before constants tail) : tail.length ≤ 1 := by
  cases rule <;> simp

/-- A proposed operation is in canonical order once it is built. -/
theorem canonicalize_of_proposed {shape : Shape}
    (proposed : operation.canonicalize before = some (.fresh shape)) {values : List Value}
    (stand : List.Forall₂ (Operand.KeepsConstant before after) shape.operands values) :
    (shape.operation values).canonicalize after = none := by
  obtain ⟨algebra, canonical, known, found, _, fresh⟩ := canonicalize_eq_some proposed
  have same : shape = ⟨operation.kind, canonical, .none, operation.type⟩ := by
    unfold Operation.ofCanonical at fresh
    split at fresh <;> cases fresh
    rfl
  subst same
  obtain ⟨tail, rule, rfl⟩ := exists_tail found
  obtain ⟨front, back, frontStand, backStand, rfl⟩ := exists_of_forall₂_append stand
  rw [List.forall₂_map_left_iff] at frontStand
  have isFront : front = before.canonicalVariables algebra operation.operands := by
    rw [← List.forall₂_eq_eq_eq]
    exact (frontStand.imp fun _ _ stands => stands.1.symm).flip.imp fun _ _ same => same.symm
  subst isFront
  refine canonicalize_of_canonical known (canonicalOperands_self
    (fun value member => ?_) (fun value member => ?_) ?_)
  · have inside := (mem_canonicalValues algebra _ value).mpr member
    have kept := List.forall₂_same.mp frontStand value inside
    rw [kept.2]
    simpa using List.of_mem_filter member
  · generalize isConstants : operation.operands.filter
      (fun value => (before.constant? value).isSome) = constants at rule
    cases rule with
    | none =>
      cases backStand
      cases member
    | one single =>
      obtain ⟨read, _, ⟨rfl, kept⟩, stop, rfl⟩ := List.forall₂_cons_left_iff.mp backStand
      cases stop
      have inside : read ∈ operation.operands.filter
          fun value => (before.constant? value).isSome := isConstants ▸ List.mem_singleton_self read
      rw [List.mem_singleton.mp member, kept]
      exact (List.mem_filter.mp inside).2
    | merged _ _ =>
      obtain ⟨_, _, constant, stop, rfl⟩ := List.forall₂_cons_left_iff.mp backStand
      cases stop
      rw [List.mem_singleton.mp member]
      exact constant
  · rw [← backStand.length_eq]
    exact rule.length_le

end Canonical

/-! ### Being at rest -/

/-- A way for operations to be at rest that is seen from what they read, and that all constants
share. -/
structure Local (rests : Scope → Nat → Operation → Prop) : Prop where
  congr : ∀ {before after : Scope} {id : Nat} {operation : Operation},
    (∀ value ∈ operation.operands, after.AgreesOn before value) →
      rests before id operation → rests after id operation
  constant : ∀ (scope : Scope) (id : Nat) {operation : Operation},
    operation.kind = .constant → rests scope id operation

namespace Graph

variable {graph next : Graph} {id : Nat} {operation : Operation} {replacement : Replacement}
  {value : Value}

/-! ### What is new after a replacement -/

/-- Every operation was there before, or it is a constant or the proposed operation. -/
theorem Builds.operation?_cases (builds : Builds graph replacement value next) {number : Nat}
    {stored : Operation} (found : next.operation? number = some stored) :
    graph.operation? number = some stored ∨ stored.kind = .constant ∧ stored.operands = [] ∨
      ∃ shape values, replacement = .fresh shape ∧ stored = shape.operation values ∧
        List.Forall₂ (fun operand value => StandsFor graph next value operand)
          shape.operands values := by
  have constant : ∀ bits : Bits, bits.operation.kind = .constant ∧ bits.operation.operands = [] :=
    fun bits => ⟨Operation.kind_of_constant? bits.constant?_operation, rfl⟩
  cases builds with
  | existing _ => exact .inl found
  | constant bits =>
    rw [operation?_store] at found
    split at found
    · cases found
      exact .inr (.inl (constant bits))
    · exact .inl found
  | @fresh shape values placed places verified =>
    rw [operation?_store] at found
    split at found
    · cases found
      exact .inr (.inr ⟨shape, values, rfl, rfl, places.standFor_store _⟩)
    · rcases places.operation?_cases found with before | ⟨_, bits, rfl⟩
      · exact .inl before
      · exact .inr (.inl (constant bits))

/-- What is built was mentioned, or its number had not been given out. -/
theorem Builds.value_cases (builds : Builds graph replacement value next) :
    value ∈ replacement.values ∨ ∃ number, value = .result number ∧ graph.nodes.size ≤ number := by
  cases builds with
  | existing _ => exact .inl (List.mem_singleton_self value)
  | constant bits => exact .inr ⟨_, rfl, Nat.le_refl _⟩
  | fresh places verified => exact .inr ⟨_, rfl, places.size_le⟩

theorem constant?_supplant (wellFormed : graph.WellFormed) {other : Value}
    (kept : other ≠ .result id) :
    (graph.supplant id operation value).scope.constant? other = graph.scope.constant? other := by
  cases other with
  | input index => rfl
  | result number =>
    have differs : number ≠ id := fun same => kept (congrArg Value.result same)
    simp only [Scope.constant?, scope, definition]
    rw [operation?_supplant wellFormed, if_neg differs]
    cases graph.operation? number <;> rfl

theorem Extends.agreesOn {before after : Graph} (extends_ : Extends before after)
    {other : Value} (held : before.holds other = true) :
    after.scope.AgreesOn before.scope other := by
  obtain ⟨type, typed⟩ := (before.holds_iff other).mp held
  refine ⟨(extends_.typeOf typed).trans typed.symm, ?_⟩
  cases other with
  | input index => rfl
  | result number =>
    obtain ⟨stored, found⟩ := (before.isLive_iff number).mp held
    exact (extends_.operation? _ _ found).trans found.symm

theorem Extends.constant? {before after : Graph} (extends_ : Extends before after)
    {other : Value} (held : before.holds other = true) :
    after.scope.constant? other = before.scope.constant? other :=
  (extends_.agreesOn held).constant?

/-- Supplanting an operation changes no other operation but for what reads it. -/
theorem agreesOn_supplant (wellFormed : graph.WellFormed) {other : Value}
    (kept : other ≠ .result id)
    (unread : ∀ stored, graph.scope.definition other = some stored →
      Value.result id ∉ stored.operands) :
    (graph.supplant id operation value).scope.AgreesOn graph.scope other := by
  refine ⟨typeOf_supplant wellFormed kept, ?_⟩
  cases other with
  | input index => rfl
  | result number =>
    have differs : number ≠ id := fun same => kept (congrArg Value.result same)
    refine (operation?_supplant wellFormed number).trans ?_
    rw [if_neg differs]
    change (graph.operation? number).map _ = graph.operation? number
    cases found : graph.operation? number with
    | none => rfl
    | some stored =>
      exact congrArg some (Operation.substitute_of_not_mem (unread stored found) value)

theorem WellFormed.holds_of_near (wellFormed : graph.WellFormed)
    (found : graph.operation? id = some operation) (near : graph.scope.Near operation value) :
    graph.holds value = true := by
  rcases near with member | ⟨inner, _, definition, defined, inside⟩
  · exact wellFormed.holds_of_reads ⟨operation, found, member⟩
  · cases inner with
    | input index => cases defined
    | result number => exact wellFormed.holds_of_reads ⟨definition, defined, inside⟩

/-- What stands for the operands of a shape is in their place. -/
theorem Extends.placed (extends_ : Extends graph next) {shape : Shape} {values : List Value}
    (stand : List.Forall₂ (fun operand value => StandsFor graph next value operand)
      shape.operands values)
    (held : ∀ read ∈ (Replacement.fresh shape).values, graph.holds read = true) :
    List.Forall₂ (Operand.Placed graph.scope next.scope) shape.operands values := by
  refine List.forall₂_iff_zip.mpr ⟨stand.length_eq, fun {operand read} paired => ?_⟩
  have stands := (List.forall₂_iff_zip.mp stand).2 paired
  cases operand with
  | existing named =>
    cases stands
    exact ⟨rfl, extends_.agreesOn
      (held _ (List.mem_filterMap.mpr ⟨_, (List.of_mem_zip paired).1, rfl⟩))⟩
  | pending bits =>
    obtain ⟨new, rfl, _, isConstant⟩ := stands
    simp only [Operand.Placed, Scope.constant?, scope, definition, isConstant]
    exact bits.constant?_operation

/-- A proposed operation that was built is in canonical order. -/
theorem Extends.canonicalize_of_proposed (extends_ : Extends graph next)
    (held : ∀ read ∈ operation.operands, graph.holds read = true) {shape : Shape}
    {values : List Value} (proposed : operation.canonicalize graph.scope = some (.fresh shape))
    (stand : List.Forall₂ (fun operand value => StandsFor graph next value operand)
      shape.operands values) :
    (shape.operation values).canonicalize next.scope = none := by
  refine BitGraph.canonicalize_of_proposed proposed
    ((extends_.placed stand fun read mentioned => ?_).imp fun _ _ => Operand.Placed.keepsConstant)
  exact held read (mem_operands_of_canonicalize proposed mentioned)

/-! ### From one operation to the next -/

/-- What is known while operations are brought to rest: those that are not to be visited any more
are at rest, and read none of those that are. -/
structure Settling (graph : Graph) (rests : Scope → Nat → Operation → Prop) (ids : List Nat) :
    Prop extends Waiting graph ids where
  settled : ∀ id operation, id ∉ ids → graph.operation? id = some operation →
    rests graph.scope id operation
  unread : ∀ reader id, reader ∉ ids → id ∈ ids → ¬ graph.Reads reader (.result id)

variable {rests : Scope → Nat → Operation → Prop}

theorem settling_start {order : List Nat} (arrangement : graph.Arrangement order) :
    graph.Settling rests order where
  toWaiting := arrangement.waiting
  settled id operation absent found :=
    absurd ((arrangement.mem_iff id).mpr ⟨operation, found⟩) absent
  unread reader id absent _ reads := by
    obtain ⟨operation, found, _⟩ := reads
    exact absent ((arrangement.mem_iff reader).mpr ⟨operation, found⟩)

theorem Settling.mono {ids : List Nat} {others : Scope → Nat → Operation → Prop}
    (settling : graph.Settling rests ids)
    (more : ∀ id operation, rests graph.scope id operation → others graph.scope id operation) :
    graph.Settling others ids where
  toWaiting := settling.toWaiting
  settled id operation absent found :=
    more id operation (settling.settled id operation absent found)
  unread := settling.unread

section Settling

variable {rest : List Nat} (settling : graph.Settling rests (id :: rest))
include settling

/-- An operation that is at rest already is passed over. -/
theorem Settling.pass_over (atRest : ∀ operation, graph.operation? id = some operation →
    rests graph.scope id operation) : graph.Settling rests rest where
  toWaiting := settling.toWaiting.tail
  settled other operation absent found := by
    by_cases same : other = id
    · subst same
      exact atRest operation found
    · exact settling.settled other operation (List.not_mem_cons_of_ne_of_not_mem same absent) found
  unread reader other absent member := by
    by_cases same : reader = id
    · exact same ▸ settling.toWaiting.unread member
    · exact settling.unread reader other (List.not_mem_cons_of_ne_of_not_mem same absent)
        (List.mem_cons_of_mem _ member)

variable (acyclic : graph.Acyclic) (found : graph.operation? id = some operation)
include acyclic found

/-- What the operation reads whose turn it is was visited before. -/
theorem Settling.visited {number : Nat} (member : .result number ∈ operation.operands) :
    number ∉ id :: rest := by
  have reads : graph.Reads id (.result number) := ⟨operation, found, member⟩
  rintro (_ | ⟨_, later⟩)
  · exact acyclic id (.direct reads)
  · exact settling.toWaiting.unread later reads

/-- So was what these operations read. -/
theorem Settling.visited_of_near {number : Nat}
    (near : graph.scope.Near operation (.result number)) : number ∉ id :: rest := by
  rcases near with member | ⟨inner, member, definition, defined, inside⟩
  · exact settling.visited acyclic found member
  · cases inner with
    | input index => cases defined
    | result middle =>
      exact fun pending => settling.unread middle number
        (settling.visited acyclic found member) pending ⟨definition, defined, inside⟩

/-- The operations are at rest that an operation reads whose turn it is. -/
theorem Settling.definition_rests {inner : Value} (member : inner ∈ operation.operands)
    {definition : Operation} (defined : graph.scope.definition inner = some definition) :
    ∃ number, rests graph.scope number definition := by
  cases inner with
  | input index => cases defined
  | result number =>
    exact ⟨number, settling.settled number definition
      (settling.visited acyclic found member) defined⟩

variable (wellFormed : graph.WellFormed)
  (near : ∀ value ∈ replacement.values, graph.scope.Near operation value)
  (builds : Builds graph replacement value next)
include wellFormed near builds

/-- Replacing an operation gives no operation that is still to be visited a new reader. -/
theorem Settling.reads_before {reader later : Nat} (member : later ∈ rest)
    (reads : (next.supplant id operation value).Reads reader (.result later)) :
    reader ≠ id ∧ graph.Reads reader (.result later) := by
  obtain ⟨there, live⟩ := settling.toWaiting.tail.live later member
  have small := lt_size_of_operation? live
  have unmentioned : Value.result later ∉ replacement.values := fun mentioned =>
    settling.visited_of_near acyclic found (near _ mentioned) (List.mem_cons_of_mem _ member)
  have different : value ≠ .result later := by
    rintro rfl
    rcases builds.value_cases with mentioned | ⟨number, same, new⟩
    · exact unmentioned mentioned
    · cases same
      exact absurd small (Nat.not_lt.mpr new)
  obtain ⟨rewritten, after, inside⟩ := reads
  rw [operation?_supplant (builds.growth.changes.wellFormed wellFormed)] at after
  split at after
  · cases after
  rename_i other
  obtain ⟨stored, before, rfl⟩ := Option.map_eq_some_iff.mp after
  obtain ⟨read, readBefore, same⟩ := List.mem_map.mp inside
  have isLater : read = .result later := by
    by_cases here : read = .result id
    · rw [here, Value.substitute_self] at same
      exact absurd same different
    · rwa [Value.substitute_other here] at same
  refine ⟨other, ?_⟩
  rcases builds.operation?_cases before with
    old | ⟨_, empty⟩ | ⟨shape, values, rfl, rfl, stand⟩
  · exact ⟨stored, old, isLater ▸ readBefore⟩
  · rw [empty] at readBefore
    cases readBefore
  · rcases standsFor_cases stand readBefore with mentioned | ⟨number, new, large⟩
    · exact absurd (List.mem_filterMap.mpr ⟨_, mentioned, isLater ▸ rfl⟩) unmentioned
    · rw [isLater] at new
      cases new
      exact absurd small (Nat.not_lt.mpr large)

omit acyclic found near in
/-- What was visited does not read the operation that is replaced, so it is what it was. -/
theorem Settling.agreesOn_visited {read : Value} (held : graph.holds read = true)
    (visited : ∀ number, read = .result number → number ∉ id :: rest) :
    (next.supplant id operation value).scope.AgreesOn next.scope read := by
  have other : read ≠ .result id := fun same => visited id same List.mem_cons_self
  refine agreesOn_supplant (builds.growth.changes.wellFormed wellFormed) other
    fun stored defined inside => ?_
  rw [(builds.growth.extends.agreesOn held).2] at defined
  cases read with
  | input index => cases defined
  | result number =>
    exact settling.unread number id (visited number rfl) List.mem_cons_self
      ⟨stored, defined, inside⟩

/-- Nor do the operands of what is built, which are near the operation or are new constants. -/
theorem Settling.agreesOn_fresh {shape : Shape} {values : List Value}
    (stand : List.Forall₂ (fun operand value => StandsFor graph next value operand)
      shape.operands values) (isFresh : replacement = .fresh shape) :
    ∀ read ∈ values, read ≠ .result id ∧
      (next.supplant id operation value).scope.AgreesOn next.scope read := by
  subst isFresh
  intro read inside
  obtain ⟨operand, listed, stands⟩ := exists_of_forall₂ stand.flip inside
  cases operand with
  | existing named =>
    cases stands
    have mentioned := near read (List.mem_filterMap.mpr ⟨_, listed, rfl⟩)
    have visited : ∀ number, read = .result number → number ∉ id :: rest :=
      fun number same => settling.visited_of_near acyclic found (same ▸ mentioned)
    exact ⟨fun same => visited id same List.mem_cons_self,
      settling.agreesOn_visited wellFormed builds (wellFormed.holds_of_near found mentioned)
        visited⟩
  | pending bits =>
    obtain ⟨fresh, rfl, large, constant⟩ := stands
    have differs : Value.result fresh ≠ .result id := by
      rintro ⟨⟩
      exact absurd (lt_size_of_operation? found) (Nat.not_lt.mpr large)
    refine ⟨differs, agreesOn_supplant (builds.growth.changes.wellFormed wellFormed) differs
      fun stored defined inside => ?_⟩
    cases constant.symm.trans defined
    cases inside

variable (local_ : Local rests)
  (new : ∀ shape values, replacement = .fresh shape →
    List.Forall₂ (fun operand value => StandsFor graph next value operand) shape.operands values →
      ∀ number, rests next.scope number (shape.operation values))
include local_ new

/-- An operation that is not to be visited any more, or that is new, is at rest. -/
theorem Settling.rests_after {number : Nat} {stored : Operation} (absent : number ∉ rest)
    (there : (next.supplant id operation value).operation? number = some stored) :
    rests (next.supplant id operation value).scope number stored := by
  rw [operation?_supplant (builds.growth.changes.wellFormed wellFormed)] at there
  split at there
  · cases there
  rename_i other
  obtain ⟨before, inNext, rfl⟩ := Option.map_eq_some_iff.mp there
  rcases builds.operation?_cases inNext with
    old | ⟨kind, _⟩ | ⟨shape, values, rfl, rfl, stand⟩
  · have outside := List.not_mem_cons_of_ne_of_not_mem other absent
    have unread : ∀ later ∈ id :: rest, Value.result later ∉ before.operands :=
      fun later member inside => settling.unread number later outside member ⟨before, old, inside⟩
    rw [Operation.substitute_of_not_mem (unread id List.mem_cons_self)]
    refine local_.congr (fun read inside => ?_) (settling.settled number before outside old)
    have held := wellFormed.holds_of_reads ⟨before, old, inside⟩
    exact (settling.agreesOn_visited wellFormed builds held fun later same pending =>
      unread later pending (same ▸ inside)).trans (builds.growth.extends.agreesOn held)
  · have same : (before.substitute (.result id) value).kind = .constant := kind
    exact local_.constant _ _ same
  · have agrees := settling.agreesOn_fresh acyclic found wellFormed near builds stand rfl
    rw [Operation.substitute_of_not_mem fun inside => (agrees _ inside).1 rfl]
    exact local_.congr (fun read inside => (agrees read inside).2)
      (new shape values rfl stand number)

theorem Settling.replace : (next.supplant id operation value).Settling rests rest where
  toWaiting := settling.toWaiting.supplant (builds.growth.changes.wellFormed wellFormed)
    builds.growth.extends fun _ _ member reads =>
      (settling.reads_before acyclic found wellFormed near builds member reads).2
  settled _ _ := settling.rests_after acyclic found wellFormed near builds local_ new
  unread reader later absent member reads := by
    obtain ⟨other, before⟩ :=
      settling.reads_before acyclic found wellFormed near builds member reads
    exact settling.unread reader later (List.not_mem_cons_of_ne_of_not_mem other absent)
      (List.mem_cons_of_mem _ member) before

end Settling

end Graph

/-- Whether an operation is in canonical order is seen from its operands. -/
theorem local_canonicalize :
    Local fun scope _ operation => operation.canonicalize scope = none where
  congr agrees canonical :=
    (canonicalize_congr fun value member => (agrees value member).constant?).trans canonical
  constant scope _ _ kind := canonicalize_of_constant kind scope

/-- After one pass all operations are in canonical order. -/
theorem Pass.canonicalize_settles {work : Workspace} (workable : work.graph.Workable) :
    ∃ changed after, Pass.canonicalize.run work = .succeed changed after ∧
      Pass.canonicalize.Does changed work.graph after.graph ∧ after.graph.Settled := by
  obtain ⟨order, ordered, arrangement⟩ := workable.acyclic.exists_order
  have run : Pass.canonicalize.run work = Workspace.walk Workspace.canonicalizeStep order work :=
    Pass.canonicalize.run_of_order ordered
  obtain ⟨changed, after, walked, accounts, final⟩ :=
    Workspace.walk_made .canonicalize
      (fun ids work => work.graph.Settling
        (fun scope _ operation => operation.canonicalize scope = none) ids)
      (fun id rest work workable settling => by
        rcases Workspace.canonicalizeStep_made workable id with
          ⟨same, canonical⟩ |
          ⟨operation, replacement, value, next, message, found, proposed, builds, makes, same⟩
        · exact ⟨false, work, same, .idle .canonicalize _ work, settling.pass_over canonical⟩
        · have wellFormed := workable.wellFormed
          have suits := canonicalize_suits (Graph.scope_typed work.graph)
            (wellFormed.verified _ _ found) proposed
          have held : ∀ read ∈ operation.operands, work.graph.holds read = true :=
            fun read member => wellFormed.holds_of_reads ⟨operation, found, member⟩
          refine ⟨true, _, same,
            Workspace.accounts_replace wellFormed found builds makes message,
            settling.replace workable.acyclic found wellFormed suits.near builds
              local_canonicalize ?_⟩
          rintro shape values rfl stand _
          exact builds.growth.extends.canonicalize_of_proposed held proposed stand)
      order workable (Graph.settling_start arrangement)
  exact ⟨changed, after, run.trans walked, accounts.does,
    fun id operation => final.settled id operation List.not_mem_nil⟩

end BitGraph
