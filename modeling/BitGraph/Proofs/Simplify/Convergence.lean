/-
This file proves that simplifying comes to an end. Each time the passes are made
they change nothing, or the graph becomes lighter, or it becomes settled without
becoming heavier; and a settled graph changes again only by becoming lighter. So
the weight of a graph bounds how often its passes can make a change.
-/

import BitGraph.Proofs.Simplify.Lightening
import BitGraph.Proofs.Simplify.Settling

namespace BitGraph

open BitGraph.Graph

/-! ### Progress -/

/-- What passes achieve: nothing, a lighter graph, or a graph that is settled for the first time and
no heavier. -/
inductive Progress : Bool → Graph → Graph → Prop where
  | idle (graph : Graph) : Progress false graph graph
  | lighter {before after : Graph}
    (less : ∀ bound, before.Within bound → ∃ less < bound, after.Within less) :
    Progress true before after
  | settling {before after : Graph} (unsettled : ¬ before.Settled) (settled : after.Settled)
    (within : ∀ bound, before.Within bound → after.Within bound) : Progress true before after

theorem Progress.trans {first second : Bool} {before middle after : Graph}
    (left : Progress first before middle) (right : Progress second middle after) :
    Progress (first || second) before after := by
  cases left with
  | idle => exact right
  | lighter less =>
    refine .lighter fun bound within => ?_
    obtain ⟨small, below, there⟩ := less bound within
    cases right with
    | idle => exact ⟨small, below, there⟩
    | lighter lessAgain =>
      obtain ⟨smaller, belowAgain, final⟩ := lessAgain small there
      exact ⟨smaller, belowAgain.trans below, final⟩
    | settling _ _ kept => exact ⟨small, below, kept small there⟩
  | settling unsettled settled kept =>
    cases right with
    | idle => exact .settling unsettled settled kept
    | lighter less => exact .lighter fun bound within => less bound (kept bound within)
    | settling unsettledAgain _ _ => exact absurd settled unsettledAgain

/-! ### Passes make progress -/

section Does

variable {pass : Pass} {changed : Bool} {before after : Graph} (workable : before.Workable)
include workable

/-- A pass that changes something makes the graph lighter, unless it only brings operands into
order. -/
theorem Pass.Does.progress (does : pass.Does changed before after)
    (other : pass ≠ .canonicalize) : Progress changed before after := by
  cases does with
  | nothing => exact .idle before
  | changes made =>
    refine .lighter fun bound within => ?_
    induction made with
    | single makes => exact makes.exists_within_lt other workable.wellFormed within
    | @tail middle last earlier makes inductionHypothesis =>
      obtain ⟨small, below, there⟩ := inductionHypothesis
      have workableThere := workable.does (Pass.Does.changes earlier)
      obtain ⟨smaller, belowAgain, final⟩ :=
        makes.exists_within_lt other workableThere.wellFormed there
      exact ⟨smaller, belowAgain.trans below, final⟩

theorem Pass.Does.within (does : pass.Does changed before after) {bound : Nat}
    (within : before.Within bound) : after.Within bound := by
  have kept := does.holds (fun graph => graph.Workable ∧ graph.Within bound)
    (fun _ _ makes both => ⟨both.1.makes makes, makes.within both.1.wellFormed both.2⟩)
    ⟨workable, within⟩
  exact kept.2

/-- No pass adds to the operations that are not constants. -/
theorem Pass.Does.computingCount_le (does : pass.Does changed before after) :
    after.computingCount ≤ before.computingCount := by
  have kept := does.holds
    (fun graph => graph.Workable ∧ graph.computingCount ≤ before.computingCount)
    (fun _ _ makes both => ⟨both.1.makes makes,
      (makes.computingCount_le both.1.wellFormed).trans both.2⟩)
    ⟨workable, Nat.le_refl _⟩
  exact kept.2

end Does

theorem Pass.run_progress (pass : Pass) {work : Workspace} (workable : work.graph.Workable) :
    ∃ changed after, pass.run work = .succeed changed after ∧ after.graph.Workable ∧
      Progress changed work.graph after.graph := by
  by_cases canonical : pass = .canonicalize
  · subst canonical
    obtain ⟨changed, ⟨after, session⟩, ran, does, settled⟩ := Pass.canonicalize_settles workable
    have acts := Pass.run_acts workable ran
    refine ⟨changed, ⟨after, session⟩, ran, workable.does does, ?_⟩
    cases does with
    | nothing => exact .idle work.graph
    | changes made =>
      refine .settling (fun before => ?_) settled fun bound =>
        (Pass.Does.changes made).within workable
      exact Bool.noConfusion (acts.of_idle before).1
  · obtain ⟨changed, after, ran, does⟩ := pass.run_made workable
    exact ⟨changed, after, ran, workable.does does, does.progress workable canonical⟩

namespace Workspace

theorem runPasses_progress (passes : List Pass) {work : Workspace}
    (workable : work.graph.Workable) :
    ∃ changed after, runPasses passes work = .succeed changed after ∧ after.graph.Workable ∧
      Progress changed work.graph after.graph := by
  induction passes generalizing work with
  | nil => exact ⟨false, work, rfl, workable, .idle _⟩
  | cons pass rest inductionHypothesis =>
    obtain ⟨first, middle, ran, workableThere, progress⟩ := pass.run_progress workable
    obtain ⟨second, after, made, final, more⟩ := inductionHypothesis workableThere
    refine ⟨first || second, after, ?_, final, progress.trans more⟩
    rw [runPasses, ran, Attempt.succeed_andThen, made, Attempt.succeed_andThen]

/-- Passes that are repeated twice as often as the graph is heavy come to an end, with one more time
to settle it and one to see that nothing changes any more. -/
theorem iterate_converges (passes : List Pass) {limit bound : Nat} {work : Workspace}
    (workable : work.graph.Workable) (within : work.graph.Within bound)
    (enough : 2 * bound + 1 ≤ limit) (spare : ¬ work.graph.Settled → 2 * bound + 2 ≤ limit) :
    ∃ iterations after, iterate passes limit work = .succeed (iterations, true) after := by
  induction limit generalizing bound work with
  | zero => exact absurd enough (Nat.not_succ_le_zero _)
  | succ remaining inductionHypothesis =>
    obtain ⟨changed, ⟨after, session⟩, made, workableThere, progress⟩ :=
      runPasses_progress passes workable
    rw [iterate, made, Attempt.succeed_andThen]
    cases progress with
    | idle => exact ⟨1, _, rfl⟩
    | lighter less =>
      obtain ⟨small, below, there⟩ := less bound within
      obtain ⟨iterations, final, iterated⟩ :=
        inductionHypothesis workableThere there (by omega) fun _ => by omega
      rw [if_pos rfl, iterated]
      exact ⟨iterations + 1, final, rfl⟩
    | settling unsettled settled kept =>
      have spared := spare unsettled
      obtain ⟨iterations, final, iterated⟩ :=
        inductionHypothesis workableThere (kept bound within) (by omega) fun again =>
          absurd settled again
      rw [if_pos rfl, iterated]
      exact ⟨iterations + 1, final, rfl⟩

end Workspace

namespace Graph

variable {graph : Graph}

/-- There is a number of iterations within which every plan comes to an end. -/
theorem Workable.exists_bound (workable : graph.Workable) :
    ∃ bound, ∀ (plan : Plan) (sink : Sink), bound ≤ plan.maxIterations →
      ∃ summary, (graph.simplify plan sink).result = .ok summary ∧ summary.converged = true := by
  obtain ⟨bound, within⟩ := workable.acyclic.exists_within
  refine ⟨2 * bound + 2, fun plan sink enough => ?_⟩
  have start : (⟨graph, { plan, sink }⟩ : Workspace).graph.Workable := workable
  obtain ⟨iterations, after, iterated⟩ :=
    Workspace.iterate_converges plan.passes start within (by omega) fun _ => enough
  rw [simplify_of_iterate iterated]
  exact ⟨_, rfl, rfl⟩

/-- Simplifying a graph without circles converges if it is given enough iterations, whatever the
passes and the options; and no pass on the way adds to the operations that are not constants. -/
theorem simplify_converges (reachable : graph.Reachable) (acyclic : graph.Acyclic)
    (lenient : graph.strictness.minArity ≤ 2) :
    (∃ bound, ∀ (plan : Plan) (sink : Sink), bound ≤ plan.maxIterations →
      ∃ summary, (graph.simplify plan sink).result = .ok summary ∧ summary.converged = true) ∧
    ∀ (plan : Plan) (sink : Sink), ∀ snapshot ∈ graph.snapshots plan sink,
      ∀ (pass : Pass) (session : Session),
        (pass.run ⟨snapshot, session⟩).state.graph.computingCount ≤ snapshot.computingCount := by
  have workable : graph.Workable := ⟨reachable.wellFormed, acyclic, lenient⟩
  refine ⟨workable.exists_bound, fun plan sink snapshot visited pass session => ?_⟩
  have rewrites := rewrites_snapshots workable.wellFormed plan sink snapshot visited
  have changes := rewrites.changes workable.wellFormed
  have there : (⟨snapshot, session⟩ : Workspace).graph.Workable :=
    ⟨changes.wellFormed workable.wellFormed, rewrites.acyclic workable.wellFormed acyclic,
      changes.frame.strictness ▸ lenient⟩
  obtain ⟨changed, after, ran, does⟩ := pass.run_made there
  rw [ran]
  exact does.computingCount_le there

theorem simplify_converges_maskedQuotient :
    maskedQuotient.Reachable ∧ maskedQuotient.Acyclic ∧
      ∃ bound, ∀ (plan : Plan) (sink : Sink), bound ≤ plan.maxIterations →
        ∃ summary, (maskedQuotient.simplify plan sink).result = .ok summary ∧
          summary.converged = true :=
  ⟨reachable_maskedQuotient, acyclic_maskedQuotient,
    (simplify_converges reachable_maskedQuotient acyclic_maskedQuotient (by decide)).1⟩

end Graph

end BitGraph
