/-
This file proves that one pass of folding leaves nothing to fold, and one pass of
bringing operands into canonical order nothing to reorder. The pass does not come
back to what it has visited, nor does it visit what it builds. But what it builds
is at rest from the start, and neither that nor what was visited is touched by
what is done later. A second pass so finds each operation at rest, and changes
nothing at all.
-/

import BitGraph.Proofs.CanonicalForm
import BitGraph.Proofs.Simplify.Account

namespace BitGraph

/-! ### Operations that folding leaves as they are -/

/-- Folding has nothing to propose for an operation, and has warned about it if it divides by a
constant zero. -/
def LeftByFolding (options : FoldOptions) (warned : List Nat) (scope : Scope) (id : Nat)
    (operation : Operation) : Prop :=
  (∀ replacement, operation.fold scope options ≠ .folded replacement) ∧
    (operation.DividesByConstantZero scope → id ∈ warned)

variable {options : FoldOptions} {warned : List Nat}

/-- Whether folding leaves an operation as it is is seen from its operands. -/
theorem local_leftByFolding : Local (LeftByFolding options warned) where
  congr agree left :=
    ⟨fun replacement => fold_congr agree ▸ left.1 replacement,
      fun divides => left.2 ((dividesByConstantZero_congr agree).mp divides)⟩
  constant scope id operation kind := by
    refine ⟨fun replacement folded => not_constant_of_fold folded kind, ?_⟩
    rintro ⟨divides | divides, _⟩ <;> cases kind.symm.trans divides

namespace Graph

variable {graph next : Graph} {id : Nat} {rest : List Nat} {operation : Operation}
  {replacement : Replacement} {value : Value}

/-- Folding an operation leaves those at rest that were, and what it builds is at rest. -/
theorem Settling.fold (settling : graph.Settling (LeftByFolding options warned) (id :: rest))
    (workable : graph.Workable) (found : graph.operation? id = some operation)
    (folded : operation.fold graph.scope options = .folded replacement)
    (builds : Builds graph replacement value next) :
    (next.supplant id operation value).Settling (LeftByFolding options warned) rest := by
  have wellFormed := workable.wellFormed
  have typed := scope_typed graph
  have verified := wellFormed.verified id operation found
  have suits := fold_suits typed wellFormed.scope_verified verified folded
  refine settling.replace workable.acyclic found wellFormed suits.near builds local_leftByFolding ?_
  rintro shape values rfl stand number
  have unfolded : ∀ inner ∈ operation.operands, ∀ definition,
      graph.scope.definition inner = some definition → ∀ replacement,
        definition.fold graph.scope options ≠ .folded replacement := by
    intro inner member definition defined
    obtain ⟨_, left, _⟩ := settling.definition_rests workable.acyclic found member defined
    exact left
  have placed := builds.growth.extends.placed stand fun read mentioned =>
    wellFormed.holds_of_near found (suits.near read mentioned)
  exact ⟨fold_of_proposed typed wellFormed.scope_verified verified unfolded folded placed,
    fun divides => absurd divides (not_divides_of_proposed folded values)⟩

end Graph

/-! ### One step of folding after the other -/

namespace Workspace

variable {work : Workspace} {plan : Plan} {id : Nat} {rest : List Nat}

/-- What is known while operations are folded: the plan is the one of the run, and the operations
that are not to be visited any more are left as they are. -/
structure Folding (plan : Plan) (ids : List Nat) (work : Workspace) : Prop where
  planned : work.session.plan = plan
  settling : work.graph.Settling (LeftByFolding plan.folding work.session.warned) ids

/-- A step goes through, and leaves its operation and those that were visited before as they are. -/
theorem foldStep_settles (workable : work.graph.Workable)
    (folding : Folding plan (id :: rest) work) :
    ∃ changed after, foldStep id work = .succeed changed after ∧
      Pass.fold.Accounts [work.graph] changed work after ∧ Folding plan rest after := by
  obtain ⟨rfl, settling⟩ := folding
  rcases foldStep_made workable id with
    ⟨same, nothing⟩ | ⟨operation, found, divides, same⟩ |
    ⟨operation, replacement, value, next, message, found, folded, builds, makes, same⟩
  · refine ⟨false, work, same, .idle .fold _ work, rfl, settling.pass_over ?_⟩
    intro operation found
    have left := nothing operation found
    exact ⟨left.1, fun divides => absurd divides left.2⟩
  · have more := Session.warned_subset_warnOnce work.session id (divisionWarning operation)
    have grown : work.graph.Settling (LeftByFolding work.session.plan.folding
        (work.session.warnOnce id (divisionWarning operation)).warned) (id :: rest) :=
      settling.mono fun _ _ left => ⟨left.1, fun again => more (left.2 again)⟩
    refine ⟨false, _, same, accounts_warn found divides, Session.plan_warnOnce _ _ _,
      grown.pass_over fun other there => ?_⟩
    cases found.symm.trans there
    refine ⟨fun replacement folded => ?_, fun _ => Session.mem_warned_warnOnce _ _ _⟩
    exact nomatch (divides.fold _).symm.trans folded
  · refine ⟨true, _, same, accounts_replace workable.wellFormed found builds makes message,
      Session.plan_record _ _ _ _, ?_⟩
    rw [Session.warned_record]
    exact settling.fold workable found folded builds

end Workspace

/-! ### Passes that find nothing -/

namespace Workspace

variable {work : Workspace}

/-- A walk does nothing if no step does. -/
theorem walk_idle {step : Nat → Workspace → Attempt Workspace Bool} {ids : List Nat}
    (each : ∀ id ∈ ids, step id work = .succeed false work) :
    walk step ids work = .succeed false work := by
  induction ids with
  | nil => rfl
  | cons id rest inductionHypothesis =>
    obtain ⟨here, there⟩ := List.forall_mem_cons.mp each
    rw [walk, here, Attempt.succeed_andThen, inductionHypothesis there]
    rfl

theorem foldStep_idle {id : Nat}
    (idle : Pass.fold.Idle work.session.plan work.graph) (warned : work.HasWarned)
    (workable : work.graph.Workable) : foldStep id work = .succeed false work := by
  rcases foldStep_made workable id with
    ⟨same, _⟩ | ⟨operation, found, divides, same⟩ | ⟨_, replacement, _, _, _, found, folded, _⟩
  · exact same
  · have silent : work.session.warnOnce id (divisionWarning operation) = work.session :=
      if_pos (warned id operation found divides)
    rw [same, silent]
  · exact absurd folded (idle id _ found replacement)

theorem canonicalizeStep_idle {id : Nat} (settled : work.graph.Settled) :
    canonicalizeStep id work = .succeed false work := by
  rcases canonicalizeStep_cases id work with
    ⟨same, _⟩ | ⟨operation, replacement, _, found, proposed, _⟩
  · exact same
  · cases (settled id operation found).symm.trans proposed

end Workspace

section Runs

variable {work : Workspace} (workable : work.graph.Workable)
include workable

/-- After one pass of folding nothing is left to fold, and each division by a constant zero was
warned about. -/
theorem Pass.fold_exhausts :
    ∃ changed after, Pass.fold.run work = .succeed changed after ∧ after.graph.Workable ∧
      after.session.plan = work.session.plan ∧
      Pass.fold.Idle work.session.plan after.graph ∧ after.HasWarned := by
  obtain ⟨order, ordered, arrangement⟩ := workable.acyclic.exists_order
  have run : Pass.fold.run work = Workspace.walk Workspace.foldStep order work :=
    Pass.fold.run_of_order ordered
  obtain ⟨changed, after, walked, accounts, settles⟩ := Workspace.walk_made .fold
    (Workspace.Folding work.session.plan) (fun id rest now => Workspace.foldStep_settles)
    order workable ⟨rfl, Graph.settling_start arrangement⟩
  have left : ∀ id operation, after.graph.operation? id = some operation →
      LeftByFolding work.session.plan.folding after.session.warned after.graph.scope id operation :=
    fun id operation => settles.settling.settled id operation List.not_mem_nil
  exact ⟨changed, after, run.trans walked, accounts.workable workable, settles.planned,
    fun id operation found => (left id operation found).1,
    fun id operation found => (left id operation found).2⟩

/-- A pass of folding that finds nothing, and nothing to warn about, does nothing. -/
theorem Pass.fold_idle (idle : Pass.fold.Idle work.session.plan work.graph)
    (warned : work.HasWarned) : Pass.fold.run work = .succeed false work := by
  obtain ⟨order, ordered, _⟩ := workable.acyclic.exists_order
  rw [Pass.fold.run_of_order ordered]
  exact Workspace.walk_idle fun _ _ => Workspace.foldStep_idle idle warned workable

/-- A pass over operations that are in canonical order does nothing. -/
theorem Pass.canonicalize_idle (settled : work.graph.Settled) :
    Pass.canonicalize.run work = .succeed false work := by
  obtain ⟨order, ordered, _⟩ := workable.acyclic.exists_order
  rw [Pass.canonicalize.run_of_order ordered]
  exact Workspace.walk_idle fun _ _ => Workspace.canonicalizeStep_idle settled

end Runs

/-! ### One pass is enough -/

namespace Graph

/-- After one pass of folding there is nothing left to fold, in what was built by it neither: for
each operation no rule applies, or it divides by a constant zero. Another pass at once changes
nothing at all, and one in a run of its own, with the same option, changes nothing of the graph. -/
theorem folding_exhausts {graph : Graph} (reachable : graph.Reachable)
    (acyclic : graph.Acyclic) (lenient : graph.strictness.minArity ≤ 2) (session : Session) :
    ∃ changed after, Pass.fold.run ⟨graph, session⟩ = .succeed changed after ∧
      (∀ id operation, after.graph.operation? id = some operation →
        operation.fold after.graph.scope session.plan.folding = .unchanged ∨
          operation.fold after.graph.scope session.plan.folding =
            .declined (.bits .divisionByZero)) ∧
      Pass.fold.run after = .succeed false after ∧
      ∀ other : Session, other.plan.folding = session.plan.folding →
        ∃ final, Pass.fold.run ⟨after.graph, other⟩ = .succeed false ⟨after.graph, final⟩ ∧
          final.changes = other.changes := by
  have workable : (⟨graph, session⟩ : Workspace).graph.Workable :=
    ⟨reachable.wellFormed, acyclic, lenient⟩
  obtain ⟨changed, after, ran, there, plan, idle, warned⟩ := Pass.fold_exhausts workable
  refine ⟨changed, after, ran, fun id operation found => ?_,
    Pass.fold_idle there (plan ▸ idle) warned, fun other same => ?_⟩
  · cases outcome : operation.fold after.graph.scope session.plan.folding with
    | folded replacement => exact absurd outcome (idle id operation found replacement)
    | unchanged => exact .inl rfl
    | declined reason =>
      have verified := there.wellFormed.verified id operation found
      obtain ⟨rfl, _⟩ := fold_declined after.graph.scope_typed verified outcome
      exact .inr rfl
  · have start : (⟨after.graph, other⟩ : Workspace).graph.Workable := there
    obtain ⟨again, last, ranAgain, _⟩ := Pass.fold.run_made start
    have idleThere : Pass.fold.Idle other.plan after.graph :=
      fun id operation found replacement => same ▸ idle id operation found replacement
    obtain ⟨rfl, final, rfl, changes⟩ := (Pass.run_acts start ranAgain).of_idle idleThere
    exact ⟨final, ranAgain, changes⟩

/-- The constants of a disjunction are merged, and nothing is found for what is built of them. -/
theorem folding_exhausts_scrambled :
    let built : Operation := ⟨.or, [.input 1, .input 0, .input 1, .result 3], .none, byte⟩
    scrambled.Reachable ∧ scrambled.Acyclic ∧
      ∃ after, Pass.fold.run ⟨scrambled, { plan := {}, sink := {} }⟩ = .succeed true after ∧
        after.graph.operation? 4 = some built ∧
        (built.fold after.graph.scope {} = .unchanged ∨
          built.fold after.graph.scope {} = .declined (.bits .divisionByZero)) ∧
        Pass.fold.run after = .succeed false after := by
  intro built
  have acyclic : scrambled.Acyclic := acyclic_of_ascending (by decide)
  obtain ⟨changed, after, ran, left, again, _⟩ := folding_exhausts reachable_scrambled acyclic
    (by decide) { plan := {}, sink := {} }
  have works : (Pass.fold.run ⟨scrambled, { plan := {}, sink := {} }⟩).result = .ok true := by cbv
  have found : (Pass.fold.run ⟨scrambled, { plan := {}, sink := {} }⟩).state.graph.operation? 4 =
    some built := by cbv
  rw [ran] at works found
  cases works
  exact ⟨reachable_scrambled, acyclic, after, ran, found, left 4 built found, again⟩

/-- After one pass each operation is in canonical order, those that were built by it included.
Another pass, in the same run or in another one, changes nothing at all. -/
theorem canonicalization_exhausts {graph : Graph} (reachable : graph.Reachable)
    (acyclic : graph.Acyclic) (lenient : graph.strictness.minArity ≤ 2) (session : Session) :
    ∃ changed after, Pass.canonicalize.run ⟨graph, session⟩ = .succeed changed after ∧
      (∀ id operation, after.graph.operation? id = some operation →
        operation.canonicalize after.graph.scope = none) ∧
      Pass.canonicalize.run after = .succeed false after ∧
      ∀ other : Session, Pass.canonicalize.run ⟨after.graph, other⟩ =
        .succeed false ⟨after.graph, other⟩ := by
  have workable : (⟨graph, session⟩ : Workspace).graph.Workable :=
    ⟨reachable.wellFormed, acyclic, lenient⟩
  obtain ⟨changed, after, ran, does, settled⟩ := Pass.canonicalize_settles workable
  have again : ∀ other : Session, Pass.canonicalize.run ⟨after.graph, other⟩ =
      .succeed false ⟨after.graph, other⟩ := fun other =>
    have start : (⟨after.graph, other⟩ : Workspace).graph.Workable := workable.does does
    Pass.canonicalize_idle start settled
  exact ⟨changed, after, ran, settled, again after.session, again⟩

/-- The operands of a disjunction are put in order, and stay in it. -/
theorem canonicalization_exhausts_scrambled :
    let built : Operation := ⟨.or, [.input 0, .input 1, .result 3], .none, byte⟩
    scrambled.Reachable ∧ scrambled.Acyclic ∧
      ∃ after, Pass.canonicalize.run ⟨scrambled, { plan := {}, sink := {} }⟩ =
          .succeed true after ∧
        after.graph.operation? 4 = some built ∧ built.canonicalize after.graph.scope = none ∧
        Pass.canonicalize.run after = .succeed false after := by
  intro built
  have acyclic : scrambled.Acyclic := acyclic_of_ascending (by decide)
  obtain ⟨changed, after, ran, canonical, again, _⟩ := canonicalization_exhausts
    reachable_scrambled acyclic (by decide) { plan := {}, sink := {} }
  have works : (Pass.canonicalize.run ⟨scrambled, { plan := {}, sink := {} }⟩).result =
    .ok true := by cbv
  have found : (Pass.canonicalize.run
    ⟨scrambled, { plan := {}, sink := {} }⟩).state.graph.operation? 4 = some built := by cbv
  rw [ran] at works found
  cases works
  exact ⟨reachable_scrambled, acyclic, after, ran, found, canonical 4 built found, again⟩

end Graph

end BitGraph
