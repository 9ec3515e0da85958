/-
This file follows a simplification from one visit of an operation to the next.
The snapshots of a pass are the graphs after each number of visits, and those of
a simplification are the snapshots of all passes that it makes. What every
rewrite keeps holds of every snapshot, the last of which is the outcome.
-/

import BitGraph.Proofs.Simplify.Rewriting
import BitGraph.Simplify.Run

namespace BitGraph

/-! ### Visits -/

/-- The operations that a pass visits, in order, once the operations have been put in order. -/
def Pass.visits (pass : Pass) (graph : Graph) (order : List Nat) : List Nat :=
  match pass with
  | .fold | .canonicalize | .merge => order
  | .sweep => order.reverse.filter (· ∈ graph.unneeded)

/-- Let a pass visit these operations. -/
def Pass.visit (pass : Pass) (ids : List Nat) (work : Workspace) : Attempt Workspace Bool :=
  match pass with
  | .fold => Workspace.walk Workspace.foldStep ids work
  | .canonicalize => Workspace.walk Workspace.canonicalizeStep ids work
  | .merge => Workspace.mergeWalk ids [] work
  | .sweep => Workspace.walk Workspace.eraseStep ids work

theorem Pass.run_of_order (pass : Pass) {work : Workspace} {order : List Nat}
    (ordered : work.graph.order = .ok order) :
    pass.run work = pass.visit (pass.visits work.graph order) work := by
  rw [Pass.run, ordered]
  cases pass <;> rfl

/-- The graphs that a pass goes through, one for each number of visits. -/
def Pass.snapshots (pass : Pass) (work : Workspace) : List Graph :=
  match work.graph.order with
  | .error _ => [work.graph]
  | .ok order =>
    (pass.visits work.graph order).inits.map fun visited => (pass.visit visited work).state.graph

namespace Workspace

/-- The graphs that passes go through, as far as they are made. -/
def passSnapshots : List Pass → Workspace → List Graph
  | [], work => [work.graph]
  | pass :: rest, work =>
    let attempt := pass.run work
    match attempt.result with
    | .ok _ => pass.snapshots work ++ passSnapshots rest attempt.state
    | .error _ => pass.snapshots work

/-- The graphs that repeated passes go through. -/
def snapshots (passes : List Pass) : Nat → Workspace → List Graph
  | 0, work => [work.graph]
  | remaining + 1, work =>
    let attempt := work.runPasses passes
    match attempt.result with
    | .ok true => passSnapshots passes work ++ snapshots passes remaining attempt.state
    | .ok false | .error _ => passSnapshots passes work

end Workspace

/-- The graphs that a simplification goes through. -/
def Graph.snapshots (graph : Graph) (plan : Plan) (sink : Sink) : List Graph :=
  Workspace.snapshots plan.passes plan.maxIterations ⟨graph, { plan, sink }⟩

/-! ### The last snapshot -/

theorem Pass.state_mem_snapshots (pass : Pass) (work : Workspace) :
    (pass.run work).state.graph ∈ pass.snapshots work := by
  unfold snapshots
  cases ordered : work.graph.order with
  | error reason =>
    rw [Pass.run, ordered]
    exact List.mem_singleton_self _
  | ok order =>
    rw [pass.run_of_order ordered]
    exact List.mem_map.mpr ⟨_, (List.mem_inits _ _).mpr (List.prefix_refl _), rfl⟩

namespace Attempt

variable {State Result Next : Type}

theorem state_andThen_succeed (attempt : Attempt State Result) (final : Result → Next) :
    (attempt.andThen fun result state => .succeed (final result) state).state =
      attempt.state := by
  obtain ⟨outcome, state⟩ := attempt
  cases outcome <;> rfl

theorem andThen_of_ok {attempt : Attempt State Result} {result : Result}
    (made : attempt.result = .ok result) (next : Result → State → Attempt State Next) :
    attempt.andThen next = next result attempt.state := by
  rw [andThen, made]

theorem andThen_of_error {attempt : Attempt State Result} {reason : GraphError}
    (made : attempt.result = .error reason) (next : Result → State → Attempt State Next) :
    attempt.andThen next = .fail reason attempt.state := by
  rw [andThen, made]

end Attempt

namespace Workspace

theorem state_mem_passSnapshots (passes : List Pass) (work : Workspace) :
    (work.runPasses passes).state.graph ∈ passSnapshots passes work := by
  induction passes generalizing work with
  | nil => exact List.mem_singleton_self _
  | cons pass rest inductionHypothesis =>
    rw [runPasses]
    cases made : (pass.run work).result with
    | error reason =>
      simp only [passSnapshots, made, Attempt.andThen_of_error made]
      exact pass.state_mem_snapshots work
    | ok changed =>
      simp only [passSnapshots, made, Attempt.andThen_of_ok made, Attempt.state_andThen_succeed]
      exact List.mem_append_right _ (inductionHypothesis _)

theorem state_mem_snapshots (passes : List Pass) (limit : Nat) (work : Workspace) :
    (work.iterate passes limit).state.graph ∈ snapshots passes limit work := by
  induction limit generalizing work with
  | zero => exact List.mem_singleton_self _
  | succ remaining inductionHypothesis =>
    have last := state_mem_passSnapshots passes work
    rw [iterate]
    match made : (work.runPasses passes).result with
    | .error reason =>
      simp only [snapshots, made, Attempt.andThen_of_error made]
      exact last
    | .ok false =>
      simp only [snapshots, made, Attempt.andThen_of_ok made]
      exact last
    | .ok true =>
      simp only [snapshots, made, Attempt.andThen_of_ok made, if_true,
        Attempt.state_andThen_succeed]
      exact List.mem_append_right _ (inductionHypothesis _)

end Workspace

/-- The outcome of a simplification is one of its snapshots. -/
theorem Graph.state_mem_snapshots (graph : Graph) (plan : Plan) (sink : Sink) :
    (graph.simplify plan sink).state.graph ∈ graph.snapshots plan sink := by
  have last := Workspace.state_mem_snapshots plan.passes plan.maxIterations ⟨graph, { plan, sink }⟩
  simp only [Graph.simplify, Graph.snapshots]
  generalize Workspace.iterate plan.passes plan.maxIterations ⟨graph, { plan, sink }⟩ = attempt
    at last
  obtain ⟨result, after⟩ := attempt
  cases result <;> exact last

/-! ### All snapshots -/

namespace Workspace

variable (holds : Graph → Prop) {passes : List Pass}
  (kept : ∀ pass ∈ passes, ∀ work : Workspace, holds work.graph →
    ∀ graph ∈ pass.snapshots work, holds graph)

include kept in
/-- What holds of all snapshots of each pass holds of those of several passes. -/
theorem holds_passSnapshots {work : Workspace} (start : holds work.graph) :
    ∀ graph ∈ passSnapshots passes work, holds graph := by
  induction passes generalizing work with
  | nil =>
    intro graph member
    rw [List.mem_singleton.mp member]
    exact start
  | cons pass rest inductionHypothesis =>
    have first := kept pass List.mem_cons_self work start
    cases made : (pass.run work).result with
    | error reason =>
      simp only [passSnapshots, made]
      exact first
    | ok changed =>
      simp only [passSnapshots, made]
      intro graph member
      rcases List.mem_append.mp member with here | later
      · exact first graph here
      · exact inductionHypothesis (fun pass member => kept pass (List.mem_cons_of_mem _ member))
          (first _ (pass.state_mem_snapshots work)) graph later

include kept in
/-- What holds of all snapshots of each pass holds of those of repeated passes. -/
theorem holds_snapshots (limit : Nat) {work : Workspace} (start : holds work.graph) :
    ∀ graph ∈ snapshots passes limit work, holds graph := by
  induction limit generalizing work with
  | zero =>
    intro graph member
    rw [List.mem_singleton.mp member]
    exact start
  | succ remaining inductionHypothesis =>
    have first := holds_passSnapshots holds kept start
    match made : (work.runPasses passes).result with
    | .error reason =>
      simp only [snapshots, made]
      exact first
    | .ok false =>
      simp only [snapshots, made]
      exact first
    | .ok true =>
      simp only [snapshots, made]
      intro graph member
      rcases List.mem_append.mp member with here | later
      · exact first graph here
      · exact inductionHypothesis (first _ (state_mem_passSnapshots passes work)) graph later

/-! ### Snapshots are reached by rewriting -/

/-- What each step of a walk keeps, the walk keeps. -/
theorem holds_walk (holds : Workspace → Prop) {step : Nat → Workspace → Attempt Workspace Bool}
    (kept : ∀ id work, holds work → holds (step id work).state) (ids : List Nat)
    {work : Workspace} (start : holds work) : holds (walk step ids work).state := by
  induction ids generalizing work with
  | nil => exact start
  | cons id rest inductionHypothesis =>
    refine Attempt.holds_andThen holds (kept id work start) fun _ state now => ?_
    exact Attempt.holds_andThen holds (inductionHypothesis now) fun _ _ final => final

variable {folds : Bool} {start : Graph}

theorem rewrites_foldStep (enabled : folds = true) (id : Nat) (work : Workspace)
    (rewrites : start.Rewrites folds work.graph) :
    start.Rewrites folds (foldStep id work).state.graph := by
  rcases foldStep_cases id work with
    ⟨same, _⟩ | ⟨operation, _, _, same⟩ |
    ⟨operation, replacement, message, found, proposed, same⟩
  · rw [same]
    exact rewrites
  · rw [same]
    exact rewrites
  · rw [same, graph_replace]
    exact rewrites.tail (.fold enabled found proposed)

theorem rewrites_canonicalizeStep (id : Nat) (work : Workspace)
    (rewrites : start.Rewrites folds work.graph) :
    start.Rewrites folds (canonicalizeStep id work).state.graph := by
  rcases canonicalizeStep_cases id work with
    ⟨same, _⟩ | ⟨operation, replacement, message, found, proposed, same⟩
  · rw [same]
    exact rewrites
  · rw [same, graph_replace]
    exact rewrites.tail (.canonicalize found proposed)

theorem rewrites_eraseStep (id : Nat) (work : Workspace)
    (rewrites : start.Rewrites folds work.graph) :
    start.Rewrites folds (eraseStep id work).state.graph := by
  rw [graph_eraseStep]
  rcases work.graph.erase_cases id with ⟨reason, same⟩ | ⟨operation, found, unused, same⟩
  · rw [same]
    exact rewrites
  · rw [same]
    exact rewrites.tail (.erase found unused)

theorem rewrites_mergeWalk {ids : List Nat} {met : List (Operation × Nat)} {work : Workspace}
    (merging : work.graph.Merging ids met) (wellFormed : work.graph.WellFormed) :
    work.graph.Rewrites folds (mergeWalk ids met work).state.graph := by
  induction ids generalizing met work with
  | nil => exact .refl
  | cons id rest inductionHypothesis =>
    obtain ⟨operation, found⟩ := merging.live id List.mem_cons_self
    rcases mergeWalk_cons merging wellFormed found with ⟨_, same⟩ | ⟨first, message, equal, same⟩
    · rw [same rest]
      exact inductionHypothesis (merging.meet found) wellFormed
    · have rewrite : work.graph.Rewrite folds (work.graph.supplant id operation (.result first)) :=
        .merge (merging.apart equal) found (merging.accurate operation first equal)
      rw [same rest, Attempt.state_andThen_succeed]
      exact .head rewrite (@inductionHypothesis met
        ⟨work.graph.supplant id operation (.result first), _⟩
        (merging.merge wellFormed equal) ((rewrite.changes wellFormed).wellFormed wellFormed))

end Workspace

variable {folds : Bool}

theorem Pass.rewrites_visit (pass : Pass) (enabled : pass = .fold → folds = true)
    {work : Workspace} (wellFormed : work.graph.WellFormed) {order visited : List Nat}
    (arrangement : work.graph.Arrangement order)
    (begins : visited <+: pass.visits work.graph order) :
    work.graph.Rewrites folds (pass.visit visited work).state.graph := by
  cases pass with
  | fold =>
    exact Workspace.holds_walk (fun after : Workspace => work.graph.Rewrites folds after.graph)
      (Workspace.rewrites_foldStep (enabled rfl)) visited .refl
  | canonicalize =>
    exact Workspace.holds_walk (fun after : Workspace => work.graph.Rewrites folds after.graph)
      Workspace.rewrites_canonicalizeStep visited .refl
  | merge =>
    exact Workspace.rewrites_mergeWalk
      ((Graph.merging_start arrangement).sublist begins.sublist) wellFormed
  | sweep =>
    exact Workspace.holds_walk (fun after : Workspace => work.graph.Rewrites folds after.graph)
      Workspace.rewrites_eraseStep visited .refl

theorem Pass.rewrites_snapshots (pass : Pass) (enabled : pass = .fold → folds = true)
    {work : Workspace} (wellFormed : work.graph.WellFormed) :
    ∀ graph ∈ pass.snapshots work, work.graph.Rewrites folds graph := by
  unfold Pass.snapshots
  cases ordered : work.graph.order with
  | error reason =>
    intro graph member
    rw [List.mem_singleton.mp member]
  | ok order =>
    intro graph member
    obtain ⟨visited, begins, rfl⟩ := List.mem_map.mp member
    exact pass.rewrites_visit enabled wellFormed (Graph.arrangement_of_order ordered)
      ((List.mem_inits visited _).mp begins)

theorem Plan.fold_of_mem_passes {plan : Plan} (member : Pass.fold ∈ plan.passes) :
    plan.fold = true := by
  unfold Plan.passes at member
  cases fold : plan.fold with
  | true => rfl
  | false =>
    rw [fold] at member
    cases plan.canonicalize <;> cases plan.merge <;> cases plan.sweep <;> simp at member

/-- Every snapshot of a simplification is reached by rewrites, without folding if the plan asks for
none. -/
theorem Graph.rewrites_snapshots {graph : Graph} (wellFormed : graph.WellFormed) (plan : Plan)
    (sink : Sink) : ∀ snapshot ∈ graph.snapshots plan sink, graph.Rewrites plan.fold snapshot := by
  refine Workspace.holds_snapshots (fun snapshot => graph.Rewrites plan.fold snapshot)
    (fun pass member work rewrites snapshot visited => ?_) _ .refl
  refine rewrites.trans (pass.rewrites_snapshots ?_ ((rewrites.changes wellFormed).wellFormed
    wellFormed) snapshot visited)
  rintro rfl
  exact Plan.fold_of_mem_passes member

end BitGraph
