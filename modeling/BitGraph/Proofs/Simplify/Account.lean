/-
This file proves that the diagnostics of a run account for it. Every pass keeps a
log of what it does, so a run has one as well, and what the run reports can be
read off its log. Whether a division by a constant zero was warned about is not
visible in the log of one pass, since a run warns about an operation once; but
after the last iteration of a run that converged, folding has visited every
operation that is left and has changed none.
-/

import BitGraph.Proofs.Simplify.Success

namespace BitGraph

/-! ### Reports -/

namespace Pass

theorem code_mem (pass : Pass) :
    pass.code ∈ [Code.folded, .canonicalized, .merged, .erased] := by
  cases pass <;> decide

theorem code_ne_divisionByZero (pass : Pass) : pass.code ≠ .divisionByZero := by
  cases pass <;> decide

end Pass

namespace Entry

theorem exists_of_mem_reports {trace : Bool} {entries : List Entry} {diagnostic : Diagnostic}
    (member : diagnostic ∈ reports trace entries) :
    ∃ entry ∈ entries, diagnostic = entry.diagnostic := by
  obtain ⟨entry, kept, rfl⟩ := List.mem_map.mp member
  exact ⟨entry, List.mem_of_mem_filter kept, rfl⟩

theorem countP_reports (trace : Bool) (entries : List Entry) (property : Diagnostic → Bool) :
    (reports trace entries).countP property =
      entries.countP fun entry => property entry.diagnostic && entry.isReported trace := by
  rw [reports, List.countP_map, List.countP_filter]
  rfl

/-- Each rewrite is reported by one note if there is a trace, and by none otherwise. -/
theorem countP_notes (trace : Bool) (entries : List Entry) :
    (reports trace entries).countP (·.severity = .note) =
      if trace then entries.countP isRewrite else 0 := by
  rw [countP_reports]
  cases trace with
  | false =>
    refine List.countP_eq_zero.mpr fun entry _ => ?_
    cases entry <;> nofun
  | true =>
    refine List.countP_congr fun entry _ => ?_
    cases entry <;> simp [diagnostic, divisionWarning, isReported, isRewrite]

/-- Each warning about an operation is reported. -/
theorem countP_warnings (trace : Bool) (entries : List Entry) (id : Nat) :
    (reports trace entries).countP (fun diagnostic =>
        diagnostic.code = .divisionByZero ∧ diagnostic.op = some id) =
      (entries.filterMap warned?).count id := by
  rw [countP_reports, List.count, List.countP_filterMap]
  refine List.countP_congr fun entry _ => ?_
  cases entry with
  | rewrite moment pass other message =>
    simp [diagnostic, warned?, pass.code_ne_divisionByZero]
  | warning moment other operation =>
    simp [diagnostic, divisionWarning, warned?, isReported, isRewrite]

end Entry

/-! ### Warnings that are given -/

namespace Session

variable (session : Session) (id : Nat) (diagnostic : Diagnostic)

theorem mem_warned_warnOnce : id ∈ (session.warnOnce id diagnostic).warned := by
  unfold warnOnce
  split
  · assumption
  · exact List.mem_cons_self

theorem warned_subset_warnOnce : session.warned ⊆ (session.warnOnce id diagnostic).warned := by
  unfold warnOnce
  split
  · exact List.Subset.refl _
  · exact List.subset_cons_self _ _

end Session

namespace Workspace

/-- Every division by a constant zero that is left was warned about. -/
def HasWarned (work : Workspace) : Prop :=
  ∀ id operation, work.graph.operation? id = some operation →
    operation.DividesByConstantZero work.graph.scope → id ∈ work.session.warned

variable {work after : Workspace} {entries : List Entry}

theorem Logs.hasWarned (logs : work.Logs entries after)
    (quiet : entries.any Entry.isRewrite = false) (warned : work.HasWarned) :
    after.HasWarned := by
  unfold HasWarned
  rw [logs.graph_eq quiet, logs.warned]
  exact fun id operation found divides =>
    List.mem_append_right _ (warned id operation found divides)

/-- Nothing was changed, and about those of the operations that divide by a constant zero it was
warned. -/
structure Warns (ids : List Nat) (before after : Workspace) : Prop where
  graph : after.graph = before.graph
  grows : before.session.warned ⊆ after.session.warned
  given : ∀ id ∈ ids, ∀ operation, before.graph.operation? id = some operation →
    operation.DividesByConstantZero before.graph.scope → id ∈ after.session.warned

theorem Warns.append {firsts seconds : List Nat} {middle : Workspace}
    (left : Warns firsts work middle) (right : Warns seconds middle after) :
    Warns (firsts ++ seconds) work after where
  graph := right.graph.trans left.graph
  grows := List.Subset.trans left.grows right.grows
  given id member operation found divides := by
    rcases List.mem_append.mp member with earlier | later
    · exact right.grows (left.given id earlier operation found divides)
    · rw [← left.graph] at found divides
      exact right.given id later operation found divides

/-- If folding does not change an operation, it has warned if that was due. -/
theorem foldStep_warns {id : Nat} (workable : work.graph.Workable)
    (stepped : foldStep id work = .succeed false after) : Warns [id] work after := by
  rcases foldStep_made workable id with
    ⟨same, nothing⟩ | ⟨operation, found, _, same⟩ | ⟨_, _, _, _, _, _, _, _, _, same⟩
  · cases same.symm.trans stepped
    refine ⟨rfl, List.Subset.refl _, fun other member operation found divides => ?_⟩
    cases List.mem_singleton.mp member
    exact absurd divides (nothing operation found).2
  · cases same.symm.trans stepped
    refine ⟨rfl, Session.warned_subset_warnOnce _ _ _, fun other member _ _ _ => ?_⟩
    cases List.mem_singleton.mp member
    exact Session.mem_warned_warnOnce _ _ _
  · cases same.symm.trans stepped

theorem walk_foldStep_warns {ids : List Nat} (workable : work.graph.Workable)
    (walked : walk foldStep ids work = .succeed false after) : Warns ids work after := by
  induction ids generalizing work with
  | nil =>
    cases walked
    exact ⟨rfl, List.Subset.refl _, nofun⟩
  | cons id rest inductionHypothesis =>
    rw [walk, Attempt.andThen_eq_succeed_iff] at walked
    obtain ⟨first, middle, stepped, others⟩ := walked
    obtain ⟨second, final, walked, done⟩ := (Attempt.andThen_eq_succeed_iff _ _ _ _).mp others
    obtain ⟨quiet, rfl⟩ := Attempt.succeed_inj.mp done
    obtain ⟨rfl, rfl⟩ := Bool.or_eq_false_iff.mp quiet
    have warns := foldStep_warns workable stepped
    exact warns.append (inductionHypothesis (warns.graph ▸ workable) walked)

end Workspace

/-- After folding has changed nothing, it has warned about every division by a constant zero. -/
theorem Pass.fold_warns {work after : Workspace} (workable : work.graph.Workable)
    (ran : Pass.fold.run work = .succeed false after) : after.HasWarned := by
  obtain ⟨order, ordered, arrangement⟩ := workable.acyclic.exists_order
  rw [Pass.fold.run_of_order ordered] at ran
  have warns := Workspace.walk_foldStep_warns workable ran
  unfold Workspace.HasWarned
  rw [warns.graph]
  exact fun id operation found =>
    warns.given id ((arrangement.mem_iff id).mpr ⟨operation, found⟩) operation found

/-! ### Runs -/

theorem Plan.passes_of_fold {plan : Plan} (folds : plan.fold = true) :
    ∃ rest, plan.passes = .fold :: rest := by
  unfold Plan.passes
  rw [if_pos folds]
  exact ⟨_, rfl⟩

namespace Workspace

/-- Passes that are made one after the other keep a log. If they change nothing and folding is
among them, it has warned about every division by a constant zero. -/
theorem runPasses_logs (passes : List Pass) {work : Workspace} (workable : work.graph.Workable) :
    ∃ entries after, runPasses passes work = .succeed (entries.any Entry.isRewrite) after ∧
      work.Logs entries after ∧ (∀ entry ∈ entries, entry.moment ∈ passSnapshots passes work) ∧
      (entries.any Entry.isRewrite = false → .fold ∈ passes → after.HasWarned) := by
  induction passes generalizing work with
  | nil => exact ⟨[], work, rfl, .nil work, nofun, nofun⟩
  | cons pass rest inductionHypothesis =>
    obtain ⟨changed, middle, ran, accounts⟩ := pass.run_accounts workable
    obtain ⟨more, after, made, logsAgain, later, warned⟩ :=
      inductionHypothesis (accounts.workable workable)
    obtain ⟨entries, logs, rfl, own⟩ := accounts
    have moments :
        passSnapshots (pass :: rest) work = pass.snapshots work ++ passSnapshots rest middle := by
      rw [passSnapshots, ran]
      rfl
    refine ⟨entries ++ more, after, ?_, logs.append logsAgain, fun entry member => ?_,
      fun quiet member => ?_⟩
    · rw [runPasses, ran, Attempt.succeed_andThen, made, Attempt.succeed_andThen, List.any_append]
    · rw [moments]
      exact List.mem_append.mpr
        ((List.mem_append.mp member).imp (fun here => (own entry here).2) (later entry))
    · rw [List.any_append, Bool.or_eq_false_iff] at quiet
      rcases List.mem_cons.mp member with rfl | behind
      · rw [quiet.1] at ran
        exact logsAgain.hasWarned quiet.2 (Pass.fold_warns workable ran)
      · exact warned quiet.2 behind

/-- Passes that are repeated keep a log. All iterations but the last have made a rewrite, and the
last one has not if the passes came to an end. -/
theorem iterate_logs (passes : List Pass) (limit : Nat) {work : Workspace}
    (workable : work.graph.Workable) :
    ∃ iterations converged entries after,
      iterate passes limit work = .succeed (iterations, converged) after ∧
      work.Logs entries after ∧ (∀ entry ∈ entries, entry.moment ∈ snapshots passes limit work) ∧
      iterations ≤ limit ∧ (converged = false → iterations = limit) ∧
      (converged = true → iterations ≤ entries.countP Entry.isRewrite + 1 ∧
        (.fold ∈ passes → after.HasWarned)) := by
  induction limit generalizing work with
  | zero =>
    exact ⟨0, false, [], work, rfl, .nil work, List.forall_mem_nil _, Nat.le_refl 0, fun _ => rfl,
      fun ended => absurd ended Bool.false_ne_true⟩
  | succ remaining inductionHypothesis =>
    obtain ⟨entries, middle, made, logs, here, warned⟩ := runPasses_logs passes workable
    rw [iterate, snapshots, made, Attempt.succeed_andThen]
    cases changed : entries.any Entry.isRewrite with
    | false =>
      exact ⟨1, true, entries, middle, rfl, logs, here, Nat.le_add_left 1 remaining,
        fun unended => absurd unended.symm Bool.false_ne_true,
        fun _ => ⟨Nat.le_add_left 1 _, warned changed⟩⟩
    | true =>
      obtain ⟨iterations, converged, more, after, iterated, logsAgain, later, few, unfinished,
        finished⟩ := inductionHypothesis (logs.workable workable)
      have some_made : 0 < entries.countP Entry.isRewrite :=
        List.countP_pos_iff.mpr (List.any_eq_true.mp changed)
      rw [if_pos rfl, iterated, Attempt.succeed_andThen]
      refine ⟨iterations + 1, converged, entries ++ more, after, rfl, logs.append logsAgain,
        fun entry member => ?_, Nat.succ_le_succ few,
        fun open_ => congrArg (· + 1) (unfinished open_), fun ended => ?_⟩
      · exact List.mem_append.mpr ((List.mem_append.mp member).imp (here entry) (later entry))
      · obtain ⟨bounded, warnedThere⟩ := finished ended
        rw [List.countP_append]
        exact ⟨by omega, warnedThere⟩

end Workspace

namespace Graph

/-! ### Accounts -/

/-- What a simplification did, step by step, and the diagnostics that account for it. -/
structure Account (graph : Graph) (plan : Plan) (sink : Sink) (entries : List Entry)
    (added : List Diagnostic) (summary : RunSummary) (after : Workspace) : Prop where
  /-- The steps were taken one after the other. -/
  logs : Workspace.Logs ⟨graph, { plan, sink }⟩ entries after
  /-- Each was taken at a graph that the simplification goes through. -/
  moments : ∀ entry ∈ entries, entry.moment ∈ graph.snapshots plan sink
  /-- The changes that were counted are the rewrites among the steps. -/
  changes : summary.changes = entries.countP Entry.isRewrite
  /-- The diagnostics are the reports about the steps. -/
  reports : added = Entry.reports plan.trace entries
  /-- They stand behind what the sink held before, and no errors were counted. -/
  collected : after.session.sink = ⟨sink.diagnostics ++ added, sink.errorCount⟩
  /-- They are notes about rewrites and warnings about divisions by zero. -/
  kinds : ∀ diagnostic ∈ added,
    diagnostic.severity = .note ∧
        diagnostic.code ∈ [Code.folded, .canonicalized, .merged, .erased] ∨
      diagnostic.severity = .warning ∧ diagnostic.code = .divisionByZero
  /-- With a trace there is a note for each change, and without one there is none. -/
  notes : added.countP (·.severity = .note) = if plan.trace then summary.changes else 0
  /-- A note names an operation that a pass rewrote at that moment. -/
  noted : ∀ diagnostic ∈ added, diagnostic.severity = .note →
    ∃ moment ∈ graph.snapshots plan sink, ∃ (pass : Pass) (id : Nat) (next : Graph),
      pass.Makes moment next ∧ moment.Removes id next ∧ diagnostic.code = pass.code ∧
        diagnostic.op = some id
  /-- A warning names an operation that was live and divided by a constant zero at that moment. -/
  warned : ∀ diagnostic ∈ added, diagnostic.code = .divisionByZero →
    ∃ moment ∈ graph.snapshots plan sink, ∃ (id : Nat) (operation : Operation),
      moment.operation? id = some operation ∧ operation.DividesByConstantZero moment.scope ∧
        diagnostic.op = some id
  /-- No operation is warned about twice. -/
  once : ∀ id, added.countP (fun diagnostic =>
    diagnostic.code = .divisionByZero ∧ diagnostic.op = some id) ≤ 1
  /-- After folding came to an end, each division by a constant zero that is left was warned about
  once. -/
  left : plan.fold = true → summary.converged = true → ∀ id operation,
    after.graph.operation? id = some operation →
      operation.DividesByConstantZero after.graph.scope → added.countP (fun diagnostic =>
        diagnostic.code = .divisionByZero ∧ diagnostic.op = some id) = 1
  /-- The passes were not made more often than allowed. -/
  iterations : summary.iterations ≤ plan.maxIterations
  /-- If they did not come to an end, they were made as often as allowed. -/
  unfinished : summary.converged = false → summary.iterations = plan.maxIterations
  /-- If they did, each time but the last brought a change. -/
  finished : summary.converged = true → summary.iterations ≤ summary.changes + 1

variable {graph : Graph} {plan : Plan} {sink : Sink} {entries : List Entry}

theorem Workable.snapshot (workable : graph.Workable) {snapshot : Graph}
    (visited : snapshot ∈ graph.snapshots plan sink) : snapshot.Workable := by
  have rewrites := rewrites_snapshots workable.wellFormed plan sink snapshot visited
  have changes := rewrites.changes workable.wellFormed
  exact ⟨changes.wellFormed workable.wellFormed,
    rewrites.acyclic workable.wellFormed workable.acyclic,
    changes.frame.strictness ▸ workable.lenient⟩

/-- What accounts for a run can be read off its log. -/
theorem Account.of_logs {iterations : Nat} {converged : Bool} {after : Workspace}
    (logs : Workspace.Logs ⟨graph, { plan, sink }⟩ entries after)
    (moments : ∀ entry ∈ entries, entry.moment ∈ graph.snapshots plan sink)
    (few : iterations ≤ plan.maxIterations)
    (unfinished : converged = false → iterations = plan.maxIterations)
    (finished : converged = true → iterations ≤ entries.countP Entry.isRewrite + 1 ∧
      (.fold ∈ plan.passes → after.HasWarned)) :
    graph.Account plan sink entries (Entry.reports plan.trace entries)
      ⟨iterations, converged, after.session.changes, graph.liveCount, after.graph.liveCount⟩
      after := by
  have changes : after.session.changes = entries.countP Entry.isRewrite :=
    logs.changes.trans (Nat.zero_add _)
  have warned : after.session.warned = (entries.filterMap Entry.warned?).reverse :=
    logs.warned.trans (List.append_nil _)
  have nodup : (entries.filterMap Entry.warned?).Nodup :=
    List.nodup_reverse.mp (warned ▸ logs.nodup List.nodup_nil)
  -- Each diagnostic belongs to a step, which was taken at one of the graphs of the run.
  have reported : ∀ diagnostic ∈ Entry.reports plan.trace entries,
      ∃ entry, diagnostic = entry.diagnostic ∧ entry.moment ∈ graph.snapshots plan sink ∧
        ∃ before next : Workspace, before.Takes entry next := by
    intro diagnostic member
    obtain ⟨entry, inside, rfl⟩ := Entry.exists_of_mem_reports member
    exact ⟨entry, rfl, moments entry inside, logs.takes inside⟩
  have kinds : ∀ diagnostic ∈ Entry.reports plan.trace entries,
      diagnostic.severity = .note ∧
          diagnostic.code ∈ [Code.folded, .canonicalized, .merged, .erased] ∨
        diagnostic.severity = .warning ∧ diagnostic.code = .divisionByZero := by
    intro diagnostic member
    obtain ⟨entry, rfl, _⟩ := reported diagnostic member
    cases entry with
    | rewrite moment pass id message => exact .inl ⟨rfl, pass.code_mem⟩
    | warning moment id operation => exact .inr ⟨rfl, rfl⟩
  exact {
    logs, moments, changes, reports := rfl, kinds, iterations := few, unfinished
    collected := by
      refine logs.sink.trans (Sink.emitAll_of_harmless sink fun diagnostic member => ?_)
      rcases kinds diagnostic member with ⟨severity, _⟩ | ⟨severity, _⟩ <;> rw [severity] <;> nofun
    notes := by rw [Entry.countP_notes, changes]
    noted := by
      intro diagnostic member isNote
      obtain ⟨entry, rfl, visited, before, next, takes⟩ := reported diagnostic member
      cases takes with
      | rewrite makes removes message => exact ⟨_, visited, _, _, _, makes, removes, rfl, rfl⟩
      | warning _ _ _ => cases isNote
    warned := by
      intro diagnostic member isWarning
      obtain ⟨entry, rfl, visited, before, next, takes⟩ := reported diagnostic member
      cases takes with
      | rewrite _ _ message => exact absurd isWarning (Pass.code_ne_divisionByZero _)
      | warning found divides _ => exact ⟨_, visited, _, _, found, divides, rfl⟩
    once := by
      intro id
      rw [Entry.countP_warnings]
      exact List.nodup_iff_count_le_one.mp nodup id
    left := by
      intro folds ended id operation found divides
      rw [Entry.countP_warnings]
      refine List.count_eq_one_of_mem nodup ?_
      obtain ⟨rest, passes⟩ := Plan.passes_of_fold folds
      have given := (finished ended).2 (passes ▸ List.mem_cons_self) id operation found divides
      rw [warned] at given
      exact List.mem_reverse.mp given
    finished := fun ended => changes ▸ (finished ended).1 }

/-- The diagnostics of a simplification account for it, and each pass that it makes says whether it
has counted a change. -/
theorem simplify_accounts (reachable : graph.Reachable) (acyclic : graph.Acyclic)
    (lenient : graph.strictness.minArity ≤ 2) (plan : Plan) (sink : Sink) :
    (∃ entries added summary after, graph.simplify plan sink = .succeed summary after ∧
      graph.Account plan sink entries added summary after) ∧
    ∀ snapshot ∈ graph.snapshots plan sink, ∀ (pass : Pass) (session : Session),
      ∃ changed after, pass.run ⟨snapshot, session⟩ = .succeed changed after ∧
        (changed = true ↔ session.changes < after.session.changes) := by
  have workable : graph.Workable := ⟨reachable.wellFormed, acyclic, lenient⟩
  have start : (⟨graph, { plan, sink }⟩ : Workspace).graph.Workable := workable
  refine ⟨?_, fun snapshot visited pass session => ?_⟩
  · obtain ⟨iterations, converged, entries, after, iterated, logs, moments, few, unfinished,
      finished⟩ := Workspace.iterate_logs plan.passes plan.maxIterations start
    exact ⟨entries, _, _, after, simplify_of_iterate iterated,
      .of_logs logs moments few unfinished finished⟩
  · have there : (⟨snapshot, session⟩ : Workspace).graph.Workable := workable.snapshot visited
    obtain ⟨changed, after, ran, accounts⟩ := pass.run_accounts there
    exact ⟨changed, after, ran, accounts.changed_iff⟩

/-- If nothing is swept, the quotient by zero stays, and the run has warned about it once and has
noted the two changes that it made. -/
theorem account_maskedQuotient :
    maskedQuotient.Reachable ∧ maskedQuotient.Acyclic ∧
      ∃ entries added summary after,
        maskedQuotient.simplify { sweep := false, trace := true } {} = .succeed summary after ∧
        maskedQuotient.Account { sweep := false, trace := true } {} entries added summary after ∧
        after.graph.isLive 1 = true ∧ added.countP (·.severity = .note) = 2 ∧
        added.countP (fun diagnostic =>
          diagnostic.code = .divisionByZero ∧ diagnostic.op = some 1) = 1 := by
  refine ⟨reachable_maskedQuotient, acyclic_maskedQuotient, ?_⟩
  obtain ⟨⟨entries, added, summary, after, simplified, account⟩, _⟩ :=
    simplify_accounts reachable_maskedQuotient acyclic_maskedQuotient (by decide)
      { sweep := false, trace := true } {}
  have made : (maskedQuotient.simplify { sweep := false, trace := true } {}).result =
      .ok ⟨2, true, 2, 3, 2⟩ := by cbv
  have kept : ((maskedQuotient.simplify { sweep := false, trace := true } {}).state.graph.operation?
      1).map (fun operation => (operation.kind, operation.divisor?
        (maskedQuotient.simplify { sweep := false, trace := true } {}).state.graph.scope)) =
      some (.div, some ⟨8, by decide, 0⟩) := by cbv
  rw [simplified] at made kept
  cases made
  obtain ⟨operation, found, same⟩ := Option.map_eq_some_iff.mp kept
  obtain ⟨kind, divisor⟩ := Prod.mk.inj same
  have divides : operation.DividesByConstantZero after.graph.scope :=
    ⟨.inl kind, (congrArg (Option.any Bits.isZero) divisor).trans (by decide)⟩
  exact ⟨entries, added, _, after, simplified, account,
    (after.graph.isLive_iff 1).mpr ⟨operation, found⟩, account.notes,
    account.left rfl rfl 1 operation found divides⟩

end Graph

end BitGraph
