/-
This file says what a report about a circle is worth. Only putting a graph in
order reports one; evaluating, the passes and the audit repeat it. The operation
that it names is live and depends on a circle, and none with a lower number does.
It is on the circle itself exactly if nothing downstream of a circle has a lower
number than all that are on one, so a report may name an operation that no circle
goes through.
-/

import BitGraph.Proofs.Audit
import BitGraph.Proofs.Graph.Stuck

namespace BitGraph

/-! ### Outcomes that are no reports -/

/-- An outcome is not a report about a circle. -/
def Straight {Result : Type} (outcome : Except GraphError Result) : Prop :=
  ∀ id, outcome ≠ .error (.cyclic id)

section Straight

variable {Item Result Next : Type} {outcome : Except GraphError Result}

theorem straight_ok (result : Result) : Straight (.ok result) := by
  rintro _ ⟨⟩

theorem Straight.bind (straight : Straight outcome) {next : Result → Except GraphError Next}
    (later : ∀ result, Straight (next result)) : Straight (outcome.bind next) := by
  cases outcome with
  | ok result => exact later result
  | error reason =>
    rintro id ⟨⟩
    exact straight id rfl

theorem straight_mapM {map : Item → Except GraphError Result} {items : List Item}
    (each : ∀ item ∈ items, Straight (map item)) : Straight (items.mapM map) := by
  intro id failed
  obtain ⟨item, member, here⟩ := exists_of_mapM_eq_error failed
  exact each item member id here

end Straight

namespace Operation

theorem straight_evaluate (operation : Operation) (arguments : List Bits) :
    Straight (operation.evaluate arguments) :=
  fun _ failed => ofComputing_of_evaluate failed

theorem straight_checkWidths (operation : Operation) (types : List BitType) :
    Straight (operation.checkWidths types) := by
  intro id
  unfold checkWidths
  grind

theorem straight_verify (operation : Operation) (scope : Scope) (strictness : Strictness) :
    Straight (operation.verify scope strictness) := by
  simp only [verify]
  have typed : Straight (scope.types operation.operands) := straight_mapM fun value _ => by
    split <;> rintro _ ⟨⟩
  split
  · split
    · exact typed.bind operation.straight_checkWidths
    · rintro _ ⟨⟩
  · rintro _ ⟨⟩

end Operation

/-! ### Evaluating -/

theorem Results.straight_valueOf {results : Results} (each : ∀ entry ∈ results, Straight entry.2)
    (assignment : Assignment) (value : Value) : Straight (results.valueOf assignment value) := by
  cases value with
  | input index =>
    simp only [valueOf, Assignment.valueOf]
    split <;> rintro _ ⟨⟩
  | result id =>
    simp only [valueOf]
    cases found : results.lookup id with
    | none => rintro _ ⟨⟩
    | some outcome =>
      obtain ⟨before, after, same, _⟩ := List.lookup_eq_some_iff.mp found
      have member : (id, outcome) ∈ results := same ▸ List.mem_append_right _ List.mem_cons_self
      exact each _ member

namespace Graph

variable {graph : Graph} {assignment : Assignment} {id : Nat}

/-- The results of operations are no reports, however many have been evaluated. -/
theorem straight_foldl_evaluateNext (ids : List Nat) {results : Results}
    (each : ∀ entry ∈ results, Straight entry.2) :
    ∀ entry ∈ ids.foldl (graph.evaluateNext assignment) results, Straight entry.2 := by
  induction ids generalizing results with
  | nil => exact each
  | cons id rest inductionHypothesis =>
    refine inductionHypothesis ?_
    unfold evaluateNext
    split
    · rename_i operation found
      intro entry member
      rcases List.mem_cons.mp member with rfl | before
      · exact (straight_mapM fun value _ => results.straight_valueOf each assignment value).bind
          operation.straight_evaluate
      · exact each entry before
    · exact each

/-- Evaluating reports the circle that putting the operations in order reports, and no other. -/
theorem evaluate_eq_cyclic_iff :
    graph.evaluate assignment = .error (.cyclic id) ↔ graph.order = .error (.cyclic id) := by
  unfold evaluate results
  cases ordered : graph.order with
  | error reason => simp [Except.map, Except.bind]
  | ok ids =>
    have straight := @straight_foldl_evaluateNext graph assignment ids []
      fun _ member => by cases member
    have outputs : Straight (graph.outputValues.mapM
        (Results.valueOf (ids.foldl (graph.evaluateNext assignment) []) assignment)) :=
      straight_mapM fun value _ => Results.straight_valueOf straight assignment value
    exact ⟨fun same => absurd same (outputs id), fun same => by cases same⟩

end Graph

/-! ### Editing -/

theorem straight_andThen {State Result Next : Type} {attempt : Attempt State Result}
    (straight : Straight attempt.result) {next : Result → State → Attempt State Next}
    (later : ∀ result state, Straight (next result state).result) :
    Straight (attempt.andThen next).result := by
  obtain ⟨outcome, state⟩ := attempt
  cases outcome with
  | ok result => exact later result state
  | error reason =>
    rintro id ⟨⟩
    exact straight id rfl

namespace Graph

variable (graph : Graph)

theorem straight_materialize (replacement : Replacement) :
    Straight (graph.materialize replacement).result := by
  cases replacement with
  | existing value =>
    rw [materialize]
    split
    · exact straight_ok _
    · rintro _ ⟨⟩
  | constant bits =>
    rw [materialize, build_constant]
    exact straight_ok _
  | fresh shape =>
    obtain ⟨values, placed, same, _⟩ := exists_places shape.operands graph
    rw [materialize, same, Attempt.succeed_andThen, build_general]
    have judged := (shape.operation values).straight_verify placed.scope placed.strictness
    split
    · exact straight_ok _
    · rename_i reason refused
      rintro id ⟨⟩
      exact judged id refused

theorem straight_replaceUses (source target : Value) :
    Straight (graph.replaceUses source target).result := by
  unfold replaceUses
  split
  · exact straight_ok _
  · split
    · rintro _ ⟨⟩
    · rintro _ ⟨⟩
    · split
      · exact straight_ok _
      · rintro _ ⟨⟩

theorem straight_erase (id : Nat) : Straight (graph.erase id).result := by
  unfold erase
  split
  · rintro _ ⟨⟩
  · split
    · exact straight_ok _
    · rintro _ ⟨⟩

theorem straight_replace (id : Nat) (replacement : Replacement) :
    Straight (graph.replace id replacement).result := by
  unfold replace
  split
  · refine straight_andThen (graph.straight_materialize replacement) fun value next => ?_
    split
    · exact straight_ok _
    · exact straight_andThen (next.straight_replaceUses _ _) fun _ last =>
        straight_andThen (last.straight_erase id) fun _ _ => straight_ok _
  · rintro _ ⟨⟩

end Graph

/-! ### Passes -/

namespace Workspace

theorem straight_edit {Result : Type} (work : Workspace) {change : Graph → Attempt Graph Result}
    (straight : Straight (change work.graph).result) : Straight (work.edit change).result :=
  straight

theorem straight_replace (work : Workspace) (id : Nat) (replacement : Replacement) (code : Code)
    (message : String) : Straight (work.replace id replacement code message).result :=
  straight_andThen (work.straight_edit (work.graph.straight_replace id replacement))
    fun _ _ => straight_ok _

theorem straight_foldStep (id : Nat) (work : Workspace) :
    Straight (foldStep id work).result := by
  rcases foldStep_cases id work with ⟨same, _⟩ | ⟨_, _, _, same⟩ | ⟨_, _, _, _, _, same⟩
  · exact same ▸ straight_ok _
  · exact same ▸ straight_ok _
  · exact same ▸ work.straight_replace id _ _ _

theorem straight_canonicalizeStep (id : Nat) (work : Workspace) :
    Straight (canonicalizeStep id work).result := by
  rcases canonicalizeStep_cases id work with ⟨same, _⟩ | ⟨_, _, _, _, _, same⟩
  · exact same ▸ straight_ok _
  · exact same ▸ work.straight_replace id _ _ _

theorem straight_eraseStep (id : Nat) (work : Workspace) :
    Straight (eraseStep id work).result :=
  straight_andThen (work.straight_edit (work.graph.straight_erase id)) fun _ _ => straight_ok _

theorem straight_walk {step : Nat → Workspace → Attempt Workspace Bool}
    (each : ∀ id work, Straight (step id work).result) (ids : List Nat) (work : Workspace) :
    Straight (walk step ids work).result := by
  induction ids generalizing work with
  | nil => exact straight_ok _
  | cons id rest inductionHypothesis =>
    exact straight_andThen (each id work) fun _ next =>
      straight_andThen (inductionHypothesis next) fun _ _ => straight_ok _

theorem straight_mergeWalk (ids : List Nat) (met : List (Operation × Nat)) (work : Workspace) :
    Straight (mergeWalk ids met work).result := by
  induction ids generalizing met work with
  | nil => exact straight_ok _
  | cons id rest inductionHypothesis =>
    unfold mergeWalk
    split
    · exact inductionHypothesis met work
    · split
      · exact inductionHypothesis _ work
      · refine straight_andThen (work.straight_edit (work.graph.straight_replaceUses _ _))
          fun _ moved => ?_
        refine straight_andThen (moved.straight_edit (moved.graph.straight_erase id))
          fun _ erased => ?_
        exact straight_andThen (inductionHypothesis met _) fun _ _ => straight_ok _

end Workspace

/-- A pass reports the circle that putting the operations in order reports, and no other. -/
theorem Pass.run_eq_cyclic_iff (pass : Pass) (work : Workspace) (id : Nat) :
    (pass.run work).result = .error (.cyclic id) ↔ work.graph.order = .error (.cyclic id) := by
  cases ordered : work.graph.order with
  | error reason =>
    rw [Pass.run, ordered]
    exact ⟨fun same => congrArg _ (Except.error.inj same), fun same => same ▸ rfl⟩
  | ok ids =>
    have straight : Straight (pass.run work).result := by
      rw [pass.run_of_order ordered]
      cases pass with
      | fold => exact Workspace.straight_walk Workspace.straight_foldStep _ work
      | canonicalize => exact Workspace.straight_walk Workspace.straight_canonicalizeStep _ work
      | merge => exact Workspace.straight_mergeWalk _ _ work
      | sweep => exact Workspace.straight_walk Workspace.straight_eraseStep _ work
    exact ⟨fun same => absurd same (straight id), fun same => by cases same⟩

namespace Graph

variable {graph : Graph} {id : Nat}

/-- The audit reports the circle that putting the operations in order reports, and no other. -/
theorem circle?_eq_circleReport_iff :
    graph.circle? = some (circleReport id) ↔ graph.order = .error (.cyclic id) := by
  refine ⟨fun reported => ?_, circle?_of_order⟩
  cases ordered : graph.order with
  | ok ids =>
    rw [circle?, ordered] at reported
    cases reported
  | error reason =>
    obtain ⟨stuck, _, rfl, _⟩ := arrange_error (fun _ live => live) ordered
    have same := Option.some.inj ((circle?_of_order ordered).symm.trans reported)
    have number : stuck = id := Option.some.inj (congrArg Diagnostic.op same)
    rw [number]

/-! ### What is reported -/

/-- What is reported as a circle, by putting a graph in order and with it by evaluating, by every
pass and by the audit, is the least operation that is stuck: it is live and depends on an operation
that reads its own result. It reads its own result itself exactly if no operation that is stuck has
a lower number than all those that do. A pass that reports it leaves everything as it was. -/
theorem circle_reports (graph : Graph) (id : Nat) :
    (∀ assignment, graph.evaluate assignment = .error (.cyclic id) ↔
      graph.order = .error (.cyclic id)) ∧
    (∀ (pass : Pass) session, (pass.run ⟨graph, session⟩).result = .error (.cyclic id) ↔
      graph.order = .error (.cyclic id)) ∧
    (graph.circle? = some (circleReport id) ↔ graph.order = .error (.cyclic id)) ∧
    (graph.order = .error (.cyclic id) ↔
      graph.Stuck id ∧ ∀ other, graph.Stuck other → id ≤ other) ∧
    (graph.order = .error (.cyclic id) →
      graph.isLive id = true ∧
      (∃ source, graph.Circular source ∧ graph.DependsOn (.result id) (.result source)) ∧
      (graph.DependsOn (.result id) (.result id) ↔
        ∀ other, graph.Stuck other → ∃ source, graph.Circular source ∧ source ≤ other) ∧
      ∀ (pass : Pass) session,
        pass.run ⟨graph, session⟩ = .fail (.cyclic id) ⟨graph, session⟩) := by
  refine ⟨fun assignment => evaluate_eq_cyclic_iff, fun pass session => pass.run_eq_cyclic_iff _ id,
    circle?_eq_circleReport_iff, order_eq_cyclic_iff, fun failed => ?_⟩
  obtain ⟨stuck, least⟩ := order_eq_cyclic_iff.mp failed
  refine ⟨stuck.isLive, stuck, circular_iff_of_least least stuck, fun pass session => ?_⟩
  rw [Pass.run, failed]

/-- A symmetric difference that reads a conjunction which was made to read itself. -/
def readsCircle : Graph :=
  let inputs := (addInput {} "a" byte).2
  let difference := (inputs.build (.variadic .xor [.input 0, .input 0])).state
  let conjunction := (difference.build (.variadic .and [.input 0, .input 0])).state
  (conjunction.replaceUses (.input 0) (.result 1)).state

theorem reachable_readsCircle : readsCircle.Reachable :=
  ⟨{}, .step (.step (.step (.step .start (.addInput _ _)) (.build _)) (.build _))
    (.replaceUses _ _)⟩

/-- All that is read in it is the conjunction. -/
theorem reads_readsCircle {reader : Nat} {value : Value} (reads : readsCircle.Reads reader value) :
    value = .result 1 := by
  obtain ⟨operation, found, member⟩ := reads
  have operands : ∀ stored ∈ readsCircle.liveIds.filterMap readsCircle.operation?,
      ∀ read ∈ stored.operands, read = .result 1 := by decide
  have live := (readsCircle.mem_liveIds_iff reader).mpr ⟨operation, found⟩
  exact operands operation (List.mem_filterMap.mpr ⟨reader, live, found⟩) value member

/-- The difference is reported, although it does not depend on itself: the only circle is that of
the conjunction. -/
theorem readsCircle_blames_reader :
    readsCircle.Reachable ∧ readsCircle.order = .error (.cyclic 0) ∧
      readsCircle.circle? = some (circleReport 0) ∧
      ¬ readsCircle.DependsOn (.result 0) (.result 0) ∧
      ∀ id, readsCircle.Circular id ↔ id = 1 := by
  have ordered : readsCircle.order = .error (.cyclic 0) := by cbv
  have only : ∀ {reader source}, readsCircle.DependsOn reader source → source = .result 1 := by
    intro reader source depends
    induction depends with
    | direct reads => exact reads_readsCircle reads
    | through _ _ inductionHypothesis => exact inductionHypothesis
  have conjunction : readsCircle.operation? 1 =
      some ⟨.and, [.result 1, .result 1], .none, byte⟩ := by decide
  refine ⟨reachable_readsCircle, ordered, circle?_of_order ordered, fun circular => ?_, fun id =>
    ⟨fun circular => Value.result.inj (only circular), ?_⟩⟩
  · cases only circular
  · rintro rfl
    exact .direct ⟨_, conjunction, List.mem_cons_self⟩

end Graph

end BitGraph
