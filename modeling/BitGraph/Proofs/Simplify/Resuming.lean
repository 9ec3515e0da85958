/-
This file proves that iterations compose: a simplification that stops after some
iterations and is then taken up again ends where one ends that is allowed as many
iterations as both together. Two things carry this. The second run, which knows
nothing of the warnings and the changes of the first one, goes on as the first one
would have gone on. And a run that came to an end has left nothing to be done, so a
second one does nothing.
-/

import BitGraph.Proofs.Simplify.Account
import BitGraph.Proofs.Simplify.Obliviousness
import BitGraph.Proofs.Simplify.SharedExpressions

namespace BitGraph

/-- The record of a run that has not done anything yet. -/
def Session.start (options : FoldOptions) : Session :=
  { plan := { folding := options }, sink := {} }

namespace Workspace

/-! ### Going on -/

/-- Go on after some iterations, unless an end was reached. -/
def iterateOn (passes : List Pass) (more : Nat) :
    Nat × Bool → Workspace → Attempt Workspace (Nat × Bool)
  | (iterations, true), work => .succeed (iterations, true) work
  | (iterations, false), work =>
    (iterate passes more work).andThen fun (others, converged) work =>
      .succeed (iterations + others, converged) work

/-- To iterate more often is to iterate and then to go on. -/
theorem iterate_add (passes : List Pass) (limit more : Nat) (work : Workspace) :
    iterate passes (limit + more) work =
      (iterate passes limit work).andThen (iterateOn passes more) := by
  induction limit generalizing work with
  | zero =>
    simp only [Nat.zero_add, iterate, Attempt.succeed_andThen, iterateOn]
    exact (Attempt.andThen_succeed _).symm
  | succ remaining inductionHypothesis =>
    rw [Nat.succ_add_eq_add_succ, Nat.add_succ, iterate, iterate, Attempt.andThen_assoc]
    congr 1
    funext changed after
    cases changed with
    | false => rfl
    | true =>
      simp only [if_true, inductionHypothesis, Attempt.andThen_assoc, Attempt.succeed_andThen]
      congr 1
      funext outcome after
      obtain ⟨iterations, converged⟩ := outcome
      cases converged with
      | true => rfl
      | false =>
        simp only [iterateOn, Attempt.andThen_assoc, Attempt.succeed_andThen, Nat.add_right_comm]

variable {passes : List Pass} {graph middle after : Graph} {options : FoldOptions}
  {limit more iterations others counted counts : Nat} {converged : Bool}

/-- Iterating goes through on every graph that passes can work on. -/
theorem exists_effect (passes : List Pass) (limit : Nat) (workable : graph.Workable)
    (options : FoldOptions) : ∃ iterations converged after counted, after.Workable ∧
      Effect (iterate passes limit) graph options (.ok (iterations, converged)) after counted := by
  have start : (⟨graph, .start options⟩ : Workspace).graph.Workable := workable
  obtain ⟨iterations, converged, _, ⟨after, later⟩, made, logs, _⟩ :=
    iterate_logs passes limit start
  obtain ⟨counted, effect⟩ := Effect.of_made (oblivious_iterate passes limit) made
  exact ⟨iterations, converged, after, counted, logs.workable start, effect⟩

theorem effect_add (effect : Effect (iterate passes limit) graph options
      (.ok (iterations, false)) middle counted)
    (later : Effect (iterate passes more) middle options (.ok (others, converged)) after counts) :
    Effect (iterate passes (limit + more)) graph options (.ok (iterations + others, converged))
      after (counted + counts) := by
  have goesOn : Effect (iterateOn passes more (iterations, false)) middle options
      (.ok (iterations + others, converged)) after (counts + 0) :=
    later.andThen (.ended (.ok (iterations + others, converged)) after options)
  rw [funext (iterate_add passes limit more)]
  exact effect.andThen goesOn

theorem effect_add_of_converged (effect : Effect (iterate passes limit) graph options
      (.ok (iterations, true)) middle counted) (more : Nat) :
    Effect (iterate passes (limit + more)) graph options (.ok (iterations, true)) middle
      counted := by
  have stays : Effect (iterateOn passes more (iterations, true)) middle options
      (.ok (iterations, true)) middle 0 := .ended (.ok (iterations, true)) middle options
  rw [funext (iterate_add passes limit more)]
  exact effect.andThen stays

/-- Passes that are taken up again after they came to an end change nothing. -/
theorem effect_of_converged (workable : graph.Workable) (effect : Effect (iterate passes limit)
      graph options (.ok (iterations, true)) middle counted) (more : Nat) :
    ∃ others converged, Effect (iterate passes more) middle options (.ok (others, converged))
      middle 0 := by
  cases more with
  | zero => exact ⟨0, false, .ended _ middle options⟩
  | succ more =>
    have start : (⟨graph, .start options⟩ : Workspace).graph.Workable := workable
    obtain ⟨later, made, _⟩ := effect (.start options) rfl
    obtain ⟨_, there, idle⟩ := iterate_converged start made
    have again : (⟨middle, .start options⟩ : Workspace).graph.Workable := there
    obtain ⟨last, iterated, unchanged⟩ := iterate_idle again (Nat.le_add_left 1 more) idle
    obtain ⟨counts, effectAgain⟩ := Effect.of_made (oblivious_iterate passes (more + 1)) iterated
    obtain ⟨_, madeAgain, _, changes⟩ := effectAgain (.start options) rfl
    cases iterated.symm.trans madeAgain
    obtain rfl : counts = 0 := Nat.add_left_cancel (changes.symm.trans unchanged)
    exact ⟨1, true, effectAgain⟩

/-- Iterations that are taken up again end where those end that were not interrupted, and the
changes add up. -/
theorem iterate_resumes (workable : graph.Workable) (passes : List Pass) (options : FoldOptions)
    (limit more : Nat) : ∃ iterations converged middle counted others ended after counts total,
      Effect (iterate passes limit) graph options (.ok (iterations, converged)) middle counted ∧
      Effect (iterate passes more) middle options (.ok (others, ended)) after counts ∧
      Effect (iterate passes (limit + more)) graph options (.ok (total, converged || ended)) after
        (counted + counts) := by
  obtain ⟨iterations, converged, middle, counted, there, effect⟩ :=
    exists_effect passes limit workable options
  cases converged with
  | true =>
    obtain ⟨others, ended, later⟩ := effect_of_converged workable effect more
    exact ⟨_, _, _, _, _, _, _, _, _, effect, later, effect_add_of_converged effect more⟩
  | false =>
    obtain ⟨others, ended, after, counts, _, later⟩ := exists_effect passes more there options
    exact ⟨_, _, _, _, _, _, _, _, _, effect, later, effect_add effect later⟩

end Workspace

/-! ### Runs compose -/

namespace Graph

variable {graph : Graph}

theorem simplify_of_effect {plan : Plan} {limit iterations counted : Nat} {converged : Bool}
    {after : Graph} (effect : Effect (Workspace.iterate plan.passes limit) graph plan.folding
      (.ok (iterations, converged)) after counted) (sink : Sink) :
    ∃ later, graph.simplify { plan with maxIterations := limit } sink = .succeed
      ⟨iterations, converged, counted, graph.liveCount, after.liveCount⟩ ⟨after, later⟩ := by
  obtain ⟨later, made, _, changes⟩ :=
    effect { plan := { plan with maxIterations := limit }, sink } rfl
  refine ⟨later, (simplify_of_iterate made).trans ?_⟩
  rw [changes, Nat.zero_add]

/-- Simplifying with some iterations and then again with more of them ends in the graph in which
simplifying with all of them ends, and the changes add up, whether or not the first run converged
and whatever is in the sinks. The single run has converged if one of the two has. -/
theorem simplify_composes (reachable : graph.Reachable) (acyclic : graph.Acyclic)
    (lenient : graph.strictness.minArity ≤ 2) (plan : Plan) (limit more : Nat)
    (early late whole : Sink) :
    let first := graph.simplify { plan with maxIterations := limit } early
    let second := first.state.graph.simplify { plan with maxIterations := more } late
    let single := graph.simplify { plan with maxIterations := limit + more } whole
    second.state.graph = single.state.graph ∧
      ∃ done added total : RunSummary, first.result = .ok done ∧ second.result = .ok added ∧
        single.result = .ok total ∧ done.changes + added.changes = total.changes ∧
        (done.converged || added.converged) = total.converged := by
  obtain ⟨_, _, middle, _, _, _, after, _, _, effect, later, uninterrupted⟩ :=
    Workspace.iterate_resumes ⟨reachable.wellFormed, acyclic, lenient⟩ plan.passes plan.folding
      limit more
  obtain ⟨_, ranFirst⟩ := simplify_of_effect effect early
  obtain ⟨_, ranSecond⟩ := simplify_of_effect later late
  obtain ⟨_, ranSingle⟩ := simplify_of_effect uninterrupted whole
  intro first second single
  have resumed : second = middle.simplify { plan with maxIterations := more } late := by
    simp only [second, first, ranFirst]
    rfl
  rw [resumed, ranSecond]
  simp only [single, first, ranFirst, ranSingle]
  exact ⟨rfl, _, _, _, rfl, rfl, rfl, rfl, rfl⟩

/-- Merging takes one iteration and folding what was merged another one, so the changes are shared
between the two runs. -/
theorem simplify_composes_doubledSum :
    let part := doubledSum.simplify { maxIterations := 1 } {}
    let rest := part.state.graph.simplify { maxIterations := 2 } {}
    let whole := doubledSum.simplify { maxIterations := 3 } {}
    doubledSum.Reachable ∧ doubledSum.Acyclic ∧ part.result = .ok ⟨1, false, 2, 5, 3⟩ ∧
      rest.result = .ok ⟨2, true, 3, 3, 1⟩ ∧ rest.state.graph = whole.state.graph ∧
      ∃ total, whole.result = .ok total ∧ total.changes = 5 ∧ total.converged = true := by
  intro part rest whole
  have reachable : doubledSum.Reachable :=
    ⟨{}, .step (.step (.step (.step (.step (.step (.step .start (.addInput _ _)) (.build _))
      (.build _)) (.build _)) (.build _)) (.build _)) (.addOutput _ _)⟩
  have acyclic : doubledSum.Acyclic := acyclic_of_ascending (by decide)
  have ranPart : (doubledSum.simplify { maxIterations := 1 } {}).result =
    .ok ⟨1, false, 2, 5, 3⟩ := by cbv
  have ranRest : ((doubledSum.simplify { maxIterations := 1 } {}).state.graph.simplify
    { maxIterations := 2 } {}).result = .ok ⟨2, true, 3, 3, 1⟩ := by cbv
  obtain ⟨same, done, added, total, first, second, single, changes, converged⟩ :=
    simplify_composes reachable acyclic (by decide) {} 1 2 {} {} {}
  cases first.symm.trans ranPart
  cases second.symm.trans ranRest
  exact ⟨reachable, acyclic, ranPart, ranRest, same, total, single, changes.symm,
    converged.symm⟩

end Graph

end BitGraph
