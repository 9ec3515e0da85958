/-
This file proves that simplifying a graph without circles goes through. What is
proposed for an operation suits it and is built, equal operations have the same
type, and what is erased has no readers, so no step of a pass is refused; and
since no step closes a circle, the next pass finds the operations in order again.
Each pass accounts for its steps, which are taken at the graphs it goes through.
A graph with circles is refused by the first pass, before anything is changed.
-/

import BitGraph.Proofs.Simplify.Log
import BitGraph.Proofs.Simplify.Sweeping

namespace BitGraph

/-! ### Steps that go through -/

namespace Workspace

variable {work : Workspace} (workable : work.graph.Workable)

include workable in
/-- What suits an operation replaces it. -/
theorem replace_made {id : Nat} {operation : Operation} {replacement : Replacement}
    {related : Except GraphError Bits → Except GraphError Bits → Prop}
    (found : work.graph.operation? id = some operation)
    (suits : replacement.Suits work.graph.scope operation related) (code : Code)
    (message : String) :
    ∃ value next,
      work.graph.replace id replacement = .succeed value (next.supplant id operation value) ∧
      Graph.Builds work.graph replacement value next ∧
      work.replace id replacement code message = .succeed true
        ⟨next.supplant id operation value, work.session.record code id message⟩ := by
  obtain ⟨rank, ranked⟩ := Graph.acyclic_iff_exists_ranked.mp workable.acyclic
  obtain ⟨value, next, replaced, builds⟩ :=
    Graph.replace_succeeds workable.wellFormed ranked found suits workable.lenient
  exact ⟨value, next, replaced, builds, replace_succeed replaced code message⟩

include workable in
/-- Folding leaves an operation alone for which nothing is proposed, it warns about one that divides
by a constant zero, or it replaces one by what is proposed. -/
theorem foldStep_made (id : Nat) :
    (foldStep id work = .succeed false work ∧
        ∀ operation, work.graph.operation? id = some operation →
          (∀ replacement, operation.fold work.graph.scope work.session.plan.folding ≠
            .folded replacement) ∧
          ¬ operation.DividesByConstantZero work.graph.scope) ∨
      (∃ operation, work.graph.operation? id = some operation ∧
        operation.DividesByConstantZero work.graph.scope ∧
        foldStep id work = .succeed false
          ⟨work.graph, work.session.warnOnce id (divisionWarning operation)⟩) ∨
      ∃ operation replacement value next message,
        work.graph.operation? id = some operation ∧
        operation.fold work.graph.scope work.session.plan.folding = .folded replacement ∧
        Graph.Builds work.graph replacement value next ∧
        Pass.fold.Makes work.graph (next.supplant id operation value) ∧
        foldStep id work = .succeed true
          ⟨next.supplant id operation value, work.session.record .folded id message⟩ := by
  have wellFormed := workable.wellFormed
  have typed := Graph.scope_typed work.graph
  rcases foldStep_cases id work with
    ⟨same, nothing⟩ | ⟨operation, found, declined, same⟩ |
    ⟨operation, replacement, message, found, proposed, same⟩
  · exact .inl ⟨same, fun operation found =>
      ⟨(nothing operation found).1, fun divides => (nothing operation found).2 (divides.fold _)⟩⟩
  · have divides := (fold_declined typed (wellFormed.verified _ _ found) declined).2
    exact .inr (.inl ⟨operation, found, divides, same⟩)
  · have suits :=
      fold_suits typed wellFormed.scope_verified (wellFormed.verified _ _ found) proposed
    obtain ⟨value, next, replaced, builds, made⟩ :=
      replace_made workable found suits .folded message
    exact .inr (.inr ⟨operation, replacement, value, next, message, found, proposed, builds,
      .fold found proposed replaced builds, same.trans made⟩)

include workable in
theorem canonicalizeStep_made (id : Nat) :
    (canonicalizeStep id work = .succeed false work ∧
        ∀ operation, work.graph.operation? id = some operation →
          operation.canonicalize work.graph.scope = none) ∨
      ∃ operation replacement value next message,
        work.graph.operation? id = some operation ∧
        operation.canonicalize work.graph.scope = some replacement ∧
        Graph.Builds work.graph replacement value next ∧
        Pass.canonicalize.Makes work.graph (next.supplant id operation value) ∧
        canonicalizeStep id work = .succeed true
          ⟨next.supplant id operation value, work.session.record .canonicalized id message⟩ := by
  rcases canonicalizeStep_cases id work with
    unchanged | ⟨operation, replacement, message, found, proposed, same⟩
  · exact .inl unchanged
  · have suits := canonicalize_suits (Graph.scope_typed work.graph)
      (workable.wellFormed.verified _ _ found) proposed
    obtain ⟨value, next, replaced, builds, made⟩ :=
      replace_made workable found suits .canonicalized message
    exact .inr ⟨operation, replacement, value, next, message, found, proposed, builds,
      .canonicalize found proposed replaced builds, same.trans made⟩

theorem eraseStep_made {id : Nat} {rest : List Nat} (wellFormed : work.graph.WellFormed)
    (sweeping : work.graph.Sweeping (id :: rest)) :
    ∃ changed after, eraseStep id work = .succeed changed after ∧
      Pass.sweep.Accounts [work.graph] changed work after ∧ after.graph.Sweeping rest := by
  obtain ⟨operation, found⟩ :=
    (work.graph.isLive_iff id).mp (sweeping.live id List.mem_cons_self)
  have unused := sweeping.unused wellFormed
  obtain ⟨message, same⟩ := eraseStep_succeed (Graph.erase_eq_succeed found unused)
  exact ⟨true, _, same, .of_makes (.sweep found unused) (Graph.removes_drop found) message,
    sweeping.drop operation⟩

/-! ### Steps that are accounted for -/

/-- What replaces an operation removes no other. -/
theorem accounts_replace {pass : Pass} {replacement : Replacement} {value : Value} {next : Graph}
    {id : Nat} {operation : Operation} (wellFormed : work.graph.WellFormed)
    (found : work.graph.operation? id = some operation)
    (builds : Graph.Builds work.graph replacement value next)
    (makes : pass.Makes work.graph (next.supplant id operation value)) (message : String) :
    pass.Accounts [work.graph] true work
      ⟨next.supplant id operation value, work.session.record pass.code id message⟩ :=
  .of_makes makes (Graph.removes_supplant (builds.growth.changes.wellFormed wellFormed)
    builds.growth.extends found value) message

/-- A warning is given once. -/
theorem accounts_warn {id : Nat} {operation : Operation}
    (found : work.graph.operation? id = some operation)
    (divides : operation.DividesByConstantZero work.graph.scope) :
    Pass.fold.Accounts [work.graph] false work
      ⟨work.graph, work.session.warnOnce id (divisionWarning operation)⟩ := by
  by_cases warned : id ∈ work.session.warned
  · have same : work.session.warnOnce id (divisionWarning operation) = work.session :=
      if_pos warned
    rw [same]
    exact .idle .fold _ work
  · exact .of_takes (.warning found divides warned)

include workable in
theorem foldStep_accounts (id : Nat) :
    ∃ changed after, foldStep id work = .succeed changed after ∧
      Pass.fold.Accounts [work.graph] changed work after := by
  rcases foldStep_made workable id with
    ⟨same, _⟩ | ⟨operation, found, divides, same⟩ |
    ⟨operation, replacement, value, next, message, found, _, builds, makes, same⟩
  · exact ⟨false, work, same, .idle .fold _ work⟩
  · exact ⟨false, _, same, accounts_warn found divides⟩
  · exact ⟨true, _, same, accounts_replace workable.wellFormed found builds makes message⟩

include workable in
theorem canonicalizeStep_accounts (id : Nat) :
    ∃ changed after, canonicalizeStep id work = .succeed changed after ∧
      Pass.canonicalize.Accounts [work.graph] changed work after := by
  rcases canonicalizeStep_made workable id with
    ⟨same, _⟩ | ⟨operation, replacement, value, next, message, found, _, builds, makes, same⟩
  · exact ⟨false, work, same, .idle .canonicalize _ work⟩
  · exact ⟨true, _, same, accounts_replace workable.wellFormed found builds makes message⟩

/-! ### Walks that go through -/

/-- The graphs that visits lead to, one for each number of visits. -/
def graphs (visit : List Nat → Attempt Workspace Bool) (ids : List Nat) : List Graph :=
  ids.inits.map fun visited => (visit visited).state.graph

theorem graphs_cons (visit : List Nat → Attempt Workspace Bool) (id : Nat) (rest : List Nat) :
    graphs visit (id :: rest) =
      (visit []).state.graph :: graphs (fun visited => visit (id :: visited)) rest := by
  simp only [graphs, List.inits_cons, List.map_cons, List.map_map, Function.comp_def]

theorem graphs_congr {visit other : List Nat → Attempt Workspace Bool} (ids : List Nat)
    (same : ∀ visited, (visit visited).state = (other visited).state) :
    graphs visit ids = graphs other ids :=
  List.map_congr_left fun visited _ => congrArg Workspace.graph (same visited)

/-- A walk goes through if each step does, as long as the steps keep what they need to know about
the operations that are still to be visited. -/
theorem walk_made (pass : Pass) (pending : List Nat → Workspace → Prop)
    {step : Nat → Workspace → Attempt Workspace Bool}
    (each : ∀ id rest (work : Workspace), work.graph.Workable → pending (id :: rest) work →
      ∃ changed after, step id work = .succeed changed after ∧
        pass.Accounts [work.graph] changed work after ∧ pending rest after)
    (ids : List Nat) {work : Workspace} (workable : work.graph.Workable)
    (start : pending ids work) :
    ∃ changed after, walk step ids work = .succeed changed after ∧
      pass.Accounts (graphs (walk step · work) ids) changed work after ∧ pending [] after := by
  induction ids generalizing work with
  | nil => exact ⟨false, work, rfl, .idle pass _ work, start⟩
  | cons id rest inductionHypothesis =>
    obtain ⟨first, middle, stepped, accounts, kept⟩ := each id rest work workable start
    obtain ⟨second, after, walked, more, final⟩ :=
      inductionHypothesis (accounts.workable workable) kept
    have later : graphs (fun visited => walk step (id :: visited) work) rest =
        graphs (walk step · middle) rest := by
      refine graphs_congr rest fun visited => ?_
      simp only [walk, stepped, Attempt.succeed_andThen, Attempt.state_andThen_succeed]
    refine ⟨first || second, after, ?_, ?_, final⟩
    · rw [walk, stepped, Attempt.succeed_andThen, walked, Attempt.succeed_andThen]
    · rw [graphs_cons, later]
      exact accounts.trans more

/-- A walk goes through if each step does. -/
theorem walk_accounts (pass : Pass) {step : Nat → Workspace → Attempt Workspace Bool}
    (each : ∀ id (work : Workspace), work.graph.Workable → ∃ changed after,
      step id work = .succeed changed after ∧ pass.Accounts [work.graph] changed work after)
    (ids : List Nat) {work : Workspace} (workable : work.graph.Workable) :
    ∃ changed after, walk step ids work = .succeed changed after ∧
      pass.Accounts (graphs (walk step · work) ids) changed work after := by
  obtain ⟨changed, after, walked, accounts, _⟩ := walk_made pass (fun _ _ => True)
    (fun id _ work workable _ => by
      obtain ⟨changed, after, stepped, accounts⟩ := each id work workable
      exact ⟨changed, after, stepped, accounts, trivial⟩) ids workable trivial
  exact ⟨changed, after, walked, accounts⟩

theorem mergeWalk_accounts {ids : List Nat} {met : List (Operation × Nat)} {work : Workspace}
    (workable : work.graph.Workable) (merging : work.graph.Merging ids met) :
    ∃ changed after, mergeWalk ids met work = .succeed changed after ∧
      Pass.merge.Accounts (graphs (mergeWalk · met work) ids) changed work after := by
  induction ids generalizing met work with
  | nil => exact ⟨false, work, rfl, .idle .merge _ work⟩
  | cons id rest inductionHypothesis =>
    obtain ⟨operation, found⟩ := merging.live id List.mem_cons_self
    rw [graphs_cons]
    rcases mergeWalk_cons merging workable.wellFormed found with
      ⟨_, same⟩ | ⟨first, message, equal, same⟩
    · rw [same rest, graphs_congr rest fun visited => congrArg Attempt.state (same visited)]
      obtain ⟨changed, after, walked, accounts⟩ :=
        inductionHypothesis workable (merging.meet found)
      exact ⟨changed, after, walked, accounts.mono (List.subset_cons_self _ _)⟩
    · have accounts : Pass.merge.Accounts [work.graph] true work _ :=
        .of_makes (merging.makes found equal)
          (Graph.removes_supplant workable.wellFormed (.refl work.graph) found _) message
      obtain ⟨changed, after, walked, more⟩ :=
        inductionHypothesis (accounts.workable workable)
          (merging.merge workable.wellFormed equal)
      have walks := (same rest).trans (congrArg (Attempt.andThen · _) walked)
      rw [graphs_congr rest fun visited => (congrArg Attempt.state (same visited)).trans
        (Attempt.state_andThen_succeed _ _)]
      exact ⟨true, after, walks, accounts.trans more⟩

end Workspace

/-! ### Passes that go through -/

/-- No pass over a graph without circles is refused, and it accounts for what it does. -/
theorem Pass.run_accounts (pass : Pass) {work : Workspace} (workable : work.graph.Workable) :
    ∃ changed after, pass.run work = .succeed changed after ∧
      pass.Accounts (pass.snapshots work) changed work after := by
  obtain ⟨order, ordered, arrangement⟩ := workable.acyclic.exists_order
  have snapshots : pass.snapshots work =
      Workspace.graphs (pass.visit · work) (pass.visits work.graph order) := by
    rw [Pass.snapshots, ordered]
    rfl
  rw [pass.run_of_order ordered, snapshots]
  cases pass with
  | fold =>
    exact Workspace.walk_accounts .fold
      (fun id _ workable => Workspace.foldStep_accounts workable id) order workable
  | canonicalize =>
    exact Workspace.walk_accounts .canonicalize
      (fun id _ workable => Workspace.canonicalizeStep_accounts workable id) order workable
  | merge => exact Workspace.mergeWalk_accounts workable (Graph.merging_start arrangement)
  | sweep =>
    obtain ⟨changed, after, walked, accounts, _⟩ :=
      Workspace.walk_made .sweep (fun ids work => work.graph.Sweeping ids)
        (fun id rest work workable sweeping =>
          Workspace.eraseStep_made workable.wellFormed sweeping)
        _ workable (Graph.sweeping_start arrangement)
    exact ⟨changed, after, walked, accounts⟩

theorem Pass.run_made (pass : Pass) {work : Workspace} (workable : work.graph.Workable) :
    ∃ changed after, pass.run work = .succeed changed after ∧
      pass.Does changed work.graph after.graph := by
  obtain ⟨changed, after, ran, accounts⟩ := pass.run_accounts workable
  exact ⟨changed, after, ran, accounts.does⟩

/-- A pass over a graph with circles is refused and changes nothing. -/
theorem Pass.run_cyclic (pass : Pass) (work : Workspace) (circular : ¬ work.graph.Acyclic) :
    ∃ id, pass.run work = .fail (.cyclic id) work := by
  obtain ⟨id, ordered⟩ := Graph.order_of_not_acyclic circular
  exact ⟨id, by rw [Pass.run, ordered]⟩

namespace Workspace

theorem runPasses_made (passes : List Pass) {work : Workspace} (workable : work.graph.Workable) :
    ∃ changed after, runPasses passes work = .succeed changed after ∧ after.graph.Workable := by
  induction passes generalizing work with
  | nil => exact ⟨false, work, rfl, workable⟩
  | cons pass rest inductionHypothesis =>
    obtain ⟨first, middle, ran, does⟩ := pass.run_made workable
    obtain ⟨second, after, made, final⟩ := inductionHypothesis (workable.does does)
    refine ⟨first || second, after, ?_, final⟩
    rw [runPasses, ran, Attempt.succeed_andThen, made, Attempt.succeed_andThen]

theorem iterate_made (passes : List Pass) (limit : Nat) (work : Workspace)
    (workable : work.graph.Workable) :
    ∃ outcome after, iterate passes limit work = .succeed outcome after := by
  induction limit generalizing work with
  | zero => exact ⟨_, work, rfl⟩
  | succ remaining inductionHypothesis =>
    obtain ⟨changed, middle, made, workableThere⟩ := runPasses_made passes workable
    rw [iterate, made, Attempt.succeed_andThen]
    cases changed with
    | false => exact ⟨_, middle, rfl⟩
    | true =>
      obtain ⟨⟨iterations, converged⟩, after, iterated⟩ := inductionHypothesis middle workableThere
      rw [if_pos rfl, iterated, Attempt.succeed_andThen]
      exact ⟨_, after, rfl⟩

end Workspace

namespace Graph

variable {graph : Graph}

theorem simplify_of_iterate {plan : Plan} {sink : Sink} {iterations : Nat} {converged : Bool}
    {after : Workspace} (iterated : Workspace.iterate plan.passes plan.maxIterations
      ⟨graph, { plan, sink }⟩ = .succeed (iterations, converged) after) :
    graph.simplify plan sink = .succeed
      ⟨iterations, converged, after.session.changes, graph.liveCount, after.graph.liveCount⟩
      after := by
  rw [simplify, iterated]
  rfl

theorem Workable.simplify_succeeds (workable : graph.Workable) (plan : Plan) (sink : Sink) :
    ∃ summary, (graph.simplify plan sink).result = .ok summary := by
  obtain ⟨⟨iterations, converged⟩, after, iterated⟩ :=
    Workspace.iterate_made plan.passes plan.maxIterations ⟨graph, { plan, sink }⟩ workable
  rw [simplify_of_iterate iterated]
  exact ⟨_, rfl⟩

theorem simplify_cyclic (circular : ¬ graph.Acyclic) {plan : Plan} (some_ : plan.passes ≠ [])
    (often : 1 ≤ plan.maxIterations) (sink : Sink) :
    ∃ id, (graph.simplify plan sink).result = .error (.cyclic id) ∧
      (graph.simplify plan sink).state.graph = graph := by
  obtain ⟨pass, rest, passes⟩ := List.exists_cons_of_ne_nil some_
  obtain ⟨remaining, limit⟩ := Nat.exists_eq_succ_of_ne_zero (Nat.one_le_iff_ne_zero.mp often)
  obtain ⟨id, refused⟩ := pass.run_cyclic ⟨graph, { plan, sink }⟩ circular
  refine ⟨id, ?_⟩
  simp only [simplify, passes, limit, Nat.succ_eq_add_one, Workspace.iterate, Workspace.runPasses,
    refused, Attempt.fail_andThen]
  exact ⟨rfl, rfl⟩

/-- Simplifying a graph without circles goes through, and no rewrite on the way closes a circle; a
graph with circles is refused and left as it is. -/
theorem simplify_ok_or_cyclic (reachable : graph.Reachable) (plan : Plan) (sink : Sink) :
    (graph.Acyclic → graph.strictness.minArity ≤ 2 →
      (∃ summary, (graph.simplify plan sink).result = .ok summary) ∧
      ∀ snapshot ∈ graph.snapshots plan sink, snapshot.Acyclic) ∧
    (¬ graph.Acyclic → plan.passes ≠ [] → 1 ≤ plan.maxIterations →
      ∃ id, (graph.simplify plan sink).result = .error (.cyclic id) ∧
        (graph.simplify plan sink).state.graph = graph) := by
  have wellFormed := reachable.wellFormed
  refine ⟨fun acyclic lenient => ⟨?_, fun snapshot visited => ?_⟩,
    fun circular some_ often => simplify_cyclic circular some_ often sink⟩
  · exact Workable.simplify_succeeds ⟨wellFormed, acyclic, lenient⟩ plan sink
  · exact (rewrites_snapshots wellFormed plan sink snapshot visited).acyclic wellFormed acyclic

/-- A conjunction that was made to read itself. -/
def selfReading : Graph :=
  let inputs := (addInput {} "a" byte).2
  let conjunction := (inputs.build (.variadic .and [.input 0, .input 0])).state
  (conjunction.replaceUses (.input 0) (.result 0)).state

theorem reachable_selfReading : selfReading.Reachable :=
  ⟨{}, .step (.step (.step .start (.addInput _ _)) (.build _)) (.replaceUses _ _)⟩

theorem circular_selfReading : ¬ selfReading.Acyclic := by
  have found : selfReading.operation? 0 =
      some ⟨.and, [.result 0, .result 0], .none, byte⟩ := by decide
  exact fun acyclic => acyclic 0 (.direct ⟨_, found, List.mem_cons_self⟩)

theorem simplify_ok_or_cyclic_samples :
    maskedQuotient.Reachable ∧ maskedQuotient.Acyclic ∧ selfReading.Reachable ∧
      ¬ selfReading.Acyclic ∧
      (∃ summary, (maskedQuotient.simplify {} {}).result = .ok summary) ∧
      ∃ id, (selfReading.simplify {} {}).result = .error (.cyclic id) := by
  refine ⟨reachable_maskedQuotient, acyclic_maskedQuotient, reachable_selfReading,
    circular_selfReading, ?_, ?_⟩
  · exact ((simplify_ok_or_cyclic reachable_maskedQuotient {} {}).1 acyclic_maskedQuotient
      (by decide)).1
  · obtain ⟨id, refused, _⟩ := (simplify_ok_or_cyclic reachable_selfReading {} {}).2
      circular_selfReading (by decide) (by decide)
    exact ⟨id, refused⟩

end Graph

end BitGraph
