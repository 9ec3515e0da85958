/-
This file proves that one pass of folding propagates constants completely. The
order of the pass puts an operation behind those that it reads, and was fixed
before the first change: when the turn of an operation comes, each of its
operands that has a pattern without any input has become a constant, and so the
operation becomes one. No rewrite of any pass takes a constant away from an
output, so the same holds of every simplification that begins with folding.
-/

import BitGraph.Proofs.Edit.Handles
import BitGraph.Proofs.Proposal.Constants
import BitGraph.Proofs.Simplify.Account
import BitGraph.Proofs.Simplify.Settling

namespace BitGraph

theorem Operation.evaluate_eq_of_mold {first second : Operation}
    (same : first.mold = second.mold) (arguments : List Bits) :
    first.evaluate arguments = second.evaluate arguments := by
  obtain ⟨kind, attr, type, _⟩ := by simpa only [Operation.mold, Prod.mk.injEq] using same
  exact Operation.evaluate_eq_of_parts kind attr type arguments

/-- An operation that computes a pattern does so from patterns of its operands. -/
theorem Operation.exists_arguments {operation : Operation} {outcomes : Outcomes} {bits : Bits}
    (computed : operation.combine (operation.operands.map outcomes) = .ok bits) :
    ∃ arguments, List.Forall₂ (fun value argument => outcomes value = .ok argument)
      operation.operands arguments ∧ operation.evaluate arguments = .ok bits := by
  cases known : (operation.operands.map outcomes).mapM id with
  | error reason =>
    rw [Operation.combine, known] at computed
    cases computed
  | ok arguments =>
    rw [Operation.combine, known] at computed
    exact ⟨arguments, List.forall₂_map_left_iff.mp ((mapM_eq_ok_iff _ _ _).mp known), computed⟩

namespace Graph

variable {start graph next : Graph} {outcomes : Outcomes} {id : Nat} {rest : List Nat}
  {operation : Operation} {replacement : Replacement} {value : Value} {bits : Bits}

/-! ### Constants that are kept -/

theorem constant?_eq_some_iff :
    graph.scope.constant? value = some bits ↔ ∃ id operation, value = .result id ∧
      graph.operation? id = some operation ∧ operation.constant? = some bits := by
  cases value with
  | input index =>
    constructor
    · nofun
    · rintro ⟨_, _, ⟨⟩, _⟩
  | result number =>
    refine Option.bind_eq_some_iff.trans ⟨?_, ?_⟩
    · rintro ⟨stored, found, constant⟩
      exact ⟨number, stored, rfl, found, constant⟩
    · rintro ⟨_, stored, ⟨⟩, found, constant⟩
      exact ⟨stored, found, constant⟩

/-- A constant is read as before, or in its place one of the same pattern, if a constant that is
supplanted gives way to one of the same pattern. -/
theorem constant?_substitute (wellFormed : next.WellFormed) (extends_ : Extends graph next)
    (found : graph.operation? id = some operation)
    (instead : operation.constant? = some bits →
      (next.supplant id operation value).scope.constant? value = some bits)
    {read : Value} (constant : graph.scope.constant? read = some bits) :
    (next.supplant id operation value).scope.constant?
      (Value.substitute (.result id) value read) = some bits := by
  obtain ⟨number, stored, rfl, there, known⟩ := constant?_eq_some_iff.mp constant
  by_cases here : number = id
  · subst here
    cases found.symm.trans there
    rw [Value.substitute_self]
    exact instead known
  · have other : Value.result number ≠ .result id := fun same => here (Value.result.inj same)
    have held : graph.holds (.result number) = true :=
      (graph.isLive_iff number).mpr ⟨stored, there⟩
    rw [Value.substitute_other other, constant?_supplant wellFormed other,
      extends_.constant? held, constant]

/-- What is built for a constant is that constant. -/
theorem Builds.constant? (builds : Builds graph replacement value next)
    (isConstant : replacement.IsConstant graph.scope bits) :
    next.scope.constant? value = some bits := by
  cases builds with
  | existing _ => exact isConstant
  | constant other =>
    cases isConstant
    exact constant?_eq_some_iff.mpr
      ⟨_, _, rfl, operation?_store_self _ _, bits.constant?_operation⟩
  | fresh _ _ => cases isConstant

/-- What is built for a constant is not the operation that it replaces, unless that is one. -/
theorem Builds.apart_of_isConstant (builds : Builds graph replacement value next)
    (found : graph.operation? id = some operation) (varies : operation.constant? = none)
    (isConstant : replacement.IsConstant graph.scope bits) : Value.result id ≠ value := by
  refine builds.apart ((graph.isLive_iff id).mpr ⟨operation, found⟩) ?_
  rintro rfl
  obtain ⟨_, _, ⟨⟩, there, constant⟩ := constant?_eq_some_iff.mp isConstant
  cases found.symm.trans there
  exact nomatch varies.symm.trans constant

/-! ### From one operation to the next -/

/-- Where a value was read before the pass, this one is read now: if the first one has a pattern,
the second one is the constant of that pattern, unless its operation is still to be visited. -/
def StandsIn (graph : Graph) (outcomes : Outcomes) (pending : List Nat) (before now : Value) :
    Prop :=
  ∀ bits, outcomes before = .ok bits → graph.scope.constant? now = some bits ∨
    now = before ∧ ∃ id ∈ pending, before = .result id

/-- What is known while constants are propagated: the operations that are still to be visited are as
they were before the pass, but for what they read. -/
structure Propagating (start : Graph) (outcomes : Outcomes) (ids : List Nat) (graph : Graph) :
    Prop where
  waiting : start.Waiting ids
  pending : ∀ id ∈ ids, ∃ before now, start.operation? id = some before ∧
    graph.operation? id = some now ∧ now.mold = before.mold ∧
      List.Forall₂ (graph.StandsIn outcomes ids) before.operands now.operands
  outputs : List.Forall₂ (graph.StandsIn outcomes ids) start.outputValues graph.outputValues

theorem propagating_start (wellFormed : graph.WellFormed) {order : List Nat}
    (arrangement : graph.Arrangement order) (solves : graph.Solves (fun _ => none) outcomes) :
    graph.Propagating outcomes order graph := by
  have stands : ∀ read, graph.holds read = true → graph.StandsIn outcomes order read read := by
    intro read held bits computed
    cases read with
    | input index => exact nomatch (solves.input index).symm.trans computed
    | result number =>
      have member := arrangement.perm.mem_iff.mpr ((graph.mem_liveIds_iff_isLive number).mpr held)
      exact .inr ⟨rfl, number, member, rfl⟩
  refine ⟨arrangement.waiting, fun id member => ?_, List.forall₂_same.mpr fun read driven =>
    stands read (wellFormed.holds_of_output driven)⟩
  obtain ⟨operation, found⟩ := (arrangement.mem_iff id).mp member
  exact ⟨operation, operation, found, found, rfl, List.forall₂_same.mpr fun read inside =>
    stands read (wellFormed.holds_of_reads ⟨operation, found, inside⟩)⟩

section Propagating

variable (propagating : start.Propagating outcomes (id :: rest) graph)
include propagating

/-- When the turn of an operation comes that has a pattern, it reads constants, and it computes the
pattern from them. -/
theorem Propagating.constants (acyclic : start.Acyclic)
    (solves : start.Solves (fun _ => none) outcomes)
    (found : graph.operation? id = some operation) (computed : outcomes (.result id) = .ok bits) :
    ∃ arguments, List.Forall₂ (fun read argument => graph.scope.constant? read = some argument)
      operation.operands arguments ∧ operation.evaluate arguments = .ok bits := by
  obtain ⟨before, now, foundBefore, foundNow, same, stand⟩ :=
    propagating.pending id List.mem_cons_self
  cases found.symm.trans foundNow
  obtain ⟨arguments, known, evaluated⟩ :=
    Operation.exists_arguments ((solves.result id before foundBefore).symm.trans computed)
  refine ⟨arguments, ?_, (Operation.evaluate_eq_of_mold same arguments).trans evaluated⟩
  -- What an operation reads is not visited after it.
  have visited : List.Forall₂ (fun read reads => ∀ argument, outcomes read = .ok argument →
      graph.scope.constant? reads = some argument) before.operands operation.operands := by
    refine List.forall₂_iff_zip.mpr ⟨stand.length_eq, fun {read reads} paired argument has => ?_⟩
    have isRead : start.Reads id read := ⟨before, foundBefore, (List.of_mem_zip paired).1⟩
    rcases (List.forall₂_iff_zip.mp stand).2 paired argument has with
      constant | ⟨_, number, member, rfl⟩
    · exact constant
    · rcases List.mem_cons.mp member with rfl | later
      · exact absurd (.direct isRead) (acyclic number)
      · exact absurd isRead (propagating.waiting.unread later)
  exact forall₂_of_common (fun _ _ _ constant has => constant _ has) visited known

/-- The operation whose turn it is is visited. What it has made of the values that are read keeps
the constants and the operations that are still to be visited. -/
theorem Propagating.visit (move : Value → Value)
    (kept : ∀ read bits, graph.scope.constant? read = some bits →
      next.scope.constant? (move read) = some bits)
    (visited : ∀ bits, outcomes (.result id) = .ok bits →
      next.scope.constant? (move (.result id)) = some bits)
    (waits : ∀ other ∈ rest, move (.result other) = .result other)
    (moved : ∀ other ∈ rest, ∀ operation, graph.operation? other = some operation →
      ∃ later, next.operation? other = some later ∧ later.mold = operation.mold ∧
        later.operands = operation.operands.map move)
    (outputs : next.outputValues = graph.outputValues.map move) :
    start.Propagating outcomes rest next := by
  have stands : ∀ before now, graph.StandsIn outcomes (id :: rest) before now →
      next.StandsIn outcomes rest before (move now) := by
    intro before now stands bits computed
    rcases stands bits computed with constant | ⟨rfl, number, member, rfl⟩
    · exact .inl (kept now bits constant)
    · rcases List.mem_cons.mp member with rfl | later
      · exact .inl (visited bits computed)
      · exact .inr ⟨waits number later, number, later, rfl⟩
  have standAll : ∀ {befores nows : List Value},
      List.Forall₂ (graph.StandsIn outcomes (id :: rest)) befores nows →
        List.Forall₂ (next.StandsIn outcomes rest) befores (nows.map move) := fun stand =>
    List.forall₂_map_right_iff.mpr (stand.imp stands)
  refine ⟨propagating.waiting.tail, fun other member => ?_, outputs ▸ standAll propagating.outputs⟩
  obtain ⟨before, now, foundBefore, foundNow, same, stand⟩ :=
    propagating.pending other (List.mem_cons_of_mem _ member)
  obtain ⟨later, foundLater, sameLater, operands⟩ := moved other member now foundNow
  exact ⟨before, later, foundBefore, foundLater, sameLater.trans same, operands ▸ standAll stand⟩

variable (acyclic : start.Acyclic) (solves : start.Solves (fun _ => none) outcomes)
  (wellFormed : graph.WellFormed) (options : FoldOptions)
include acyclic solves wellFormed

/-- An operation that has a pattern is a constant when it has been visited, or folding finds the
constant. -/
theorem Propagating.proposed (found : graph.operation? id = some operation)
    (computed : outcomes (.result id) = .ok bits) :
    operation.constant? = some bits ∨ ∃ replacement,
      operation.fold graph.scope options = .folded replacement ∧
        replacement.IsConstant graph.scope bits := by
  obtain ⟨arguments, constants, evaluated⟩ :=
    propagating.constants acyclic solves found computed
  by_cases isConstant : operation.kind = .constant
  · refine .inl ?_
    unfold Operation.evaluate at evaluated
    simp only [isConstant] at evaluated
    split at evaluated
    · rename_i known
      cases evaluated
      exact known
    · cases evaluated
  · exact .inr (fold_of_constants (scope_typed graph) (wellFormed.verified id operation found)
      constants evaluated isConstant options)

/-- An operation for which folding proposes nothing is passed over. -/
theorem Propagating.pass_over (nothing : ∀ operation, graph.operation? id = some operation →
    ∀ replacement, operation.fold graph.scope options ≠ .folded replacement) :
    start.Propagating outcomes rest graph := by
  refine propagating.visit (fun read => read) (fun _ _ constant => constant)
    (fun bits computed => ?_) (fun _ _ => rfl)
    (fun _ _ operation found => ⟨operation, found, rfl, (List.map_id' _).symm⟩)
    (List.map_id' _).symm
  obtain ⟨_, operation, _, found, _⟩ := propagating.pending id List.mem_cons_self
  rcases propagating.proposed acyclic solves wellFormed options found computed with
    constant | ⟨replacement, folded, _⟩
  · exact constant?_eq_some_iff.mpr ⟨id, operation, rfl, found, constant⟩
  · exact absurd folded (nothing operation found replacement)

/-- An operation is folded. -/
theorem Propagating.replace (found : graph.operation? id = some operation)
    (folded : operation.fold graph.scope options = .folded replacement)
    (builds : Builds graph replacement value next) :
    start.Propagating outcomes rest (next.supplant id operation value) := by
  have wellFormedNext := builds.growth.changes.wellFormed wellFormed
  have extended := builds.growth.extends
  have varies : operation.constant? = none :=
    Option.eq_none_iff_forall_ne_some.mpr fun bits constant =>
      not_constant_of_fold folded (Operation.kind_of_constant? constant)
  refine propagating.visit (Value.substitute (.result id) value) (fun read bits constant => ?_)
    (fun bits computed => ?_) (fun other member => ?_) (fun other member stored there => ?_) ?_
  · refine constant?_substitute wellFormedNext extended found (fun known => ?_) constant
    exact nomatch varies.symm.trans known
  · rcases propagating.proposed acyclic solves wellFormed options found computed with
      constant | ⟨_, same, isConstant⟩
    · exact nomatch varies.symm.trans constant
    · cases folded.symm.trans same
      have apart := builds.apart_of_isConstant found varies isConstant
      rw [Value.substitute_self, constant?_supplant wellFormedNext apart.symm]
      exact builds.constant? isConstant
  · refine Value.substitute_other ?_
    rintro ⟨⟩
    exact propagating.waiting.not_mem member
  · have differs : other ≠ id := by
      rintro rfl
      exact propagating.waiting.not_mem member
    refine ⟨stored.substitute (.result id) value, ?_, Operation.mold_substitute _ _ _, rfl⟩
    rw [operation?_supplant wellFormedNext, if_neg differs, extended.operation? _ _ there]
    rfl
  · rw [outputValues_supplant wellFormedNext, outputValues, outputValues, extended.outputs]

end Propagating

/-! ### Outputs driven by constants -/

/-- Each output that has a pattern is driven by a live constant of that pattern. -/
def DrivesConstants (graph : Graph) (results : List (Except GraphError Bits)) : Prop :=
  ∀ (index : Nat) (bits : Bits), results[index]? = some (.ok bits) →
    ∃ id operation, graph.outputValues[index]? = some (.result id) ∧
      graph.operation? id = some operation ∧ operation.kind = .constant ∧
        operation.constant? = some bits

theorem drivesConstants_iff {results : List (Except GraphError Bits)} :
    graph.DrivesConstants results ↔ ∀ (index : Nat) (bits : Bits),
      results[index]? = some (.ok bits) → ∃ read, graph.outputValues[index]? = some read ∧
        graph.scope.constant? read = some bits := by
  refine forall₃_congr fun index bits _ => ⟨?_, ?_⟩
  · rintro ⟨id, operation, driven, found, _, constant⟩
    exact ⟨_, driven, constant?_eq_some_iff.mpr ⟨id, operation, rfl, found, constant⟩⟩
  · rintro ⟨read, driven, constant⟩
    obtain ⟨id, operation, rfl, found, known⟩ := constant?_eq_some_iff.mp constant
    exact ⟨id, operation, driven, found, Operation.kind_of_constant? known, known⟩

theorem Propagating.drivesConstants (propagating : start.Propagating outcomes [] graph) :
    graph.DrivesConstants (start.outputValues.map outcomes) := by
  refine drivesConstants_iff.mpr fun index bits computed => ?_
  rw [List.getElem?_map] at computed
  obtain ⟨before, there, has⟩ := Option.map_eq_some_iff.mp computed
  obtain ⟨below, rfl⟩ := List.getElem?_eq_some_iff.mp there
  have stand := List.forall₂_iff_get.mp propagating.outputs
  have stands := stand.2 index below (stand.1 ▸ below)
  rcases stands bits has with constant | ⟨_, _, none_left, _⟩
  · exact ⟨_, List.getElem?_eq_getElem _, constant⟩
  · cases none_left

/-- Supplanting an operation takes no constant from an output, if a constant gives way to one of
the same pattern. -/
theorem DrivesConstants.supplant {results : List (Except GraphError Bits)}
    (drives : graph.DrivesConstants results) (wellFormed : next.WellFormed)
    (extends_ : Extends graph next) (found : graph.operation? id = some operation)
    (instead : ∀ bits, operation.constant? = some bits →
      (next.supplant id operation value).scope.constant? value = some bits) :
    (next.supplant id operation value).DrivesConstants results := by
  rw [drivesConstants_iff] at drives ⊢
  intro index bits computed
  obtain ⟨read, driven, constant⟩ := drives index bits computed
  refine ⟨Value.substitute (.result id) value read, ?_,
    constant?_substitute wellFormed extends_ found (instead bits) constant⟩
  have same : next.outputValues = graph.outputValues := by
    rw [outputValues, outputValues, extends_.outputs]
  rw [outputValues_supplant wellFormed, same, List.getElem?_map, driven]
  rfl

end Graph

/-- No rewrite takes a constant from an output. -/
theorem Pass.Makes.drivesConstants {pass : Pass} {graph next : Graph}
    {results : List (Except GraphError Bits)} (wellFormed : graph.WellFormed)
    (makes : pass.Makes graph next) (drives : graph.DrivesConstants results) :
    next.DrivesConstants results := by
  cases makes with
  | fold found proposed _ builds =>
    exact drives.supplant (builds.growth.changes.wellFormed wellFormed) builds.growth.extends found
      fun _ constant =>
        absurd (Operation.kind_of_constant? constant) (not_constant_of_fold proposed)
  | canonicalize found proposed _ builds =>
    exact drives.supplant (builds.growth.changes.wellFormed wellFormed) builds.growth.extends found
      fun _ constant =>
        absurd (Operation.kind_of_constant? constant) (not_constant_of_canonicalize proposed)
  | @merge id first operation apart found equal =>
    refine drives.supplant wellFormed (.refl graph) found fun bits constant => ?_
    have other : Value.result first ≠ .result id := fun same => apart (Value.result.inj same).symm
    rw [Graph.constant?_supplant wellFormed other]
    exact Graph.constant?_eq_some_iff.mpr ⟨first, operation, rfl, equal, constant⟩
  | @sweep id operation found unused =>
    intro index bits computed
    obtain ⟨number, stored, driven, there, known⟩ := drives index bits computed
    have outputs := (Graph.extends_drop graph id operation).outputs
    have read : graph.readAt? (.output index) = some (.result number) := by
      rw [Graph.readAt?_output, ← List.getElem?_map]
      exact driven
    have other : number ≠ id := by
      rintro rfl
      have member := (wellFormed.mem_uses_iff (.result number) (.output index)).mpr read
      rw [unused] at member
      cases member
    refine ⟨number, stored, ?_, ?_, known⟩
    · rw [Graph.outputValues, ← outputs]
      exact driven
    · rw [Graph.operation?_drop, if_neg other, there]

/-- After one pass of folding, each output that has a pattern without any input is driven by the
constant of that pattern. -/
theorem Pass.fold_propagates {work : Workspace} (workable : work.graph.Workable)
    {outcomes : Outcomes} (solves : work.graph.Solves (fun _ => none) outcomes) :
    ∃ changed after, Pass.fold.run work = .succeed changed after ∧ after.graph.Workable ∧
      after.graph.DrivesConstants (work.graph.outputValues.map outcomes) := by
  obtain ⟨order, ordered, arrangement⟩ := workable.acyclic.exists_order
  have run : Pass.fold.run work = Workspace.walk Workspace.foldStep order work :=
    Pass.fold.run_of_order ordered
  have acyclic := workable.acyclic
  obtain ⟨changed, after, walked, accounts, final⟩ :=
    Workspace.walk_made .fold
      (fun ids current => work.graph.Propagating outcomes ids current.graph)
      (fun id rest current there propagating => by
        have wellFormed := there.wellFormed
        rcases Workspace.foldStep_made there id with
          ⟨same, nothing⟩ | ⟨operation, found, divides, same⟩ |
          ⟨operation, replacement, value, next, message, found, folded, builds, makes, same⟩
        · exact ⟨false, current, same, .idle .fold _ current,
            propagating.pass_over acyclic solves wellFormed _ fun operation found =>
              (nothing operation found).1⟩
        · refine ⟨false, _, same, Workspace.accounts_warn found divides,
            propagating.pass_over acyclic solves wellFormed {} fun other there replacement => ?_⟩
          cases found.symm.trans there
          rw [divides.fold]
          nofun
        · exact ⟨true, _, same, Workspace.accounts_replace wellFormed found builds makes message,
            propagating.replace acyclic solves wellFormed _ found folded builds⟩)
      order workable (Graph.propagating_start workable.wellFormed arrangement solves)
  exact ⟨changed, after, run.trans walked, accounts.workable workable, final.drivesConstants⟩

/-! ### Runs that begin with folding -/

/-- After its first pass, a run goes on by steps of its passes. -/
theorem Workspace.iterate_after_first (pass : Pass) (rest : List Pass) (remaining : Nat)
    {work middle : Workspace} {changed : Bool} (ran : pass.run work = .succeed changed middle)
    (workable : middle.graph.Workable) :
    ∃ outcome after entries,
      iterate (pass :: rest) (remaining + 1) work = .succeed outcome after ∧
        middle.Logs entries after := by
  obtain ⟨entries, last, made, logs, _⟩ := runPasses_logs rest workable
  rw [iterate, runPasses, ran, Attempt.succeed_andThen, made, Attempt.succeed_andThen,
    Attempt.succeed_andThen]
  cases changed || entries.any Entry.isRewrite with
  | false => exact ⟨_, last, entries, rfl, logs⟩
  | true =>
    obtain ⟨iterations, converged, more, after, iterated, logsAgain, _⟩ :=
      iterate_logs (pass :: rest) remaining (logs.workable workable)
    rw [if_pos rfl, iterated, Attempt.succeed_andThen]
    exact ⟨_, after, entries ++ more, rfl, logs.append logsAgain⟩

namespace Graph

/-- One pass of folding over a graph without circles propagates constants completely, whatever the
options: each output that has a pattern without any input is driven by the constant of that
pattern. The same holds after every simplification that folds at least once. -/
theorem constants_propagate {graph : Graph} (reachable : graph.Reachable)
    (acyclic : graph.Acyclic) (lenient : graph.strictness.minArity ≤ 2) :
    ∃ results, graph.outcomes (fun _ => none) = .ok results ∧
      (∀ session : Session, ∃ changed after,
        Pass.fold.run ⟨graph, session⟩ = .succeed changed after ∧
          after.graph.DrivesConstants results) ∧
      ∀ (plan : Plan) (sink : Sink), plan.fold = true → 1 ≤ plan.maxIterations →
        ∃ summary after, graph.simplify plan sink = .succeed summary after ∧
          after.graph.DrivesConstants results := by
  have workable : graph.Workable := ⟨reachable.wellFormed, acyclic, lenient⟩
  obtain ⟨solution, _, solves⟩ := exists_solution acyclic fun _ => none
  have folds : ∀ session : Session, ∃ changed after,
      Pass.fold.run ⟨graph, session⟩ = .succeed changed after ∧ after.graph.Workable ∧
        after.graph.DrivesConstants (graph.outputValues.map (solution.valueOf fun _ => none)) :=
    fun session =>
      have start : (⟨graph, session⟩ : Workspace).graph.Workable := workable
      Pass.fold_propagates start solves
  refine ⟨_, outcomes_of_solves workable.wellFormed acyclic solves, fun session => ?_,
    fun plan sink enabled often => ?_⟩
  · obtain ⟨changed, after, ran, _, drives⟩ := folds session
    exact ⟨changed, after, ran, drives⟩
  · obtain ⟨rest, passes⟩ := Plan.passes_of_fold enabled
    obtain ⟨remaining, limit⟩ := Nat.exists_eq_add_of_le' often
    obtain ⟨changed, middle, ran, there, drives⟩ := folds { plan, sink }
    obtain ⟨⟨iterations, converged⟩, after, entries, iterated, logs⟩ :=
      Workspace.iterate_after_first .fold rest remaining ran there
    rw [← passes, ← limit] at iterated
    refine ⟨_, after, simplify_of_iterate iterated, ?_⟩
    exact logs.holds (·.DrivesConstants _)
      (fun _ _ _ workable makes => makes.drivesConstants workable.wellFormed) there drives

/-- A sum of constants, joined with nothing else. -/
def joinedSum : Graph :=
  let three := (build {} (.constant ⟨byte.width, byte.positive, 3⟩)).state
  let sum := (three.build (.variadic .add [.result 0, .result 0])).state
  let joined := (sum.build (.concat [.result 1])).state
  (joined.addOutput "y" (.result 2)).state

theorem constants_propagate_joinedSum :
    joinedSum.Reachable ∧ joinedSum.Acyclic ∧
      ∃ summary after, joinedSum.simplify {} {} = .succeed summary after ∧
        ∃ id operation, after.graph.outputValues[0]? = some (.result id) ∧
          after.graph.operation? id = some operation ∧ operation.kind = .constant ∧
          operation.constant? = some ⟨byte.width, byte.positive, 6⟩ := by
  have reachable : joinedSum.Reachable :=
    ⟨{}, .step (.step (.step (.step .start (.build _)) (.build _)) (.build _)) (.addOutput _ _)⟩
  have acyclic : joinedSum.Acyclic := acyclic_of_ascending (by decide)
  obtain ⟨results, same, _, simplifies⟩ := constants_propagate reachable acyclic (by decide)
  obtain ⟨summary, after, simplified, drives⟩ := simplifies {} {} rfl (by decide)
  have computed : joinedSum.outcomes (fun _ => none) =
      .ok [.ok ⟨byte.width, byte.positive, 6⟩] := by cbv
  cases same.symm.trans computed
  exact ⟨reachable, acyclic, summary, after, simplified, drives 0 _ rfl⟩

end Graph

end BitGraph
