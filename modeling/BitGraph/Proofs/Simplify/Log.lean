/-
This file keeps the log of a run. A run does two kinds of things: a pass makes a
rewrite, which is counted and, if the plan asks for a trace, reported; or folding
warns about a division by a constant zero, once for each operation. What a run has
reported, how many changes it has counted and which operations it has warned about
can be read off its log, and so can the way the graph went.
-/

import BitGraph.Proofs.Proposal.Declining
import BitGraph.Proofs.Simplify.Meaning

namespace BitGraph

/-! ### Rewrites that go through -/

/-- A rewrite that a pass makes and that goes through. -/
inductive Pass.Makes (graph : Graph) : Pass → Graph → Prop where
  | fold {id : Nat} {operation : Operation} {options : FoldOptions} {replacement : Replacement}
    {value : Value} {next : Graph} (found : graph.operation? id = some operation)
    (proposed : operation.fold graph.scope options = .folded replacement)
    (replaced : graph.replace id replacement = .succeed value (next.supplant id operation value))
    (builds : Graph.Builds graph replacement value next) :
    Makes graph .fold (next.supplant id operation value)
  | canonicalize {id : Nat} {operation : Operation} {replacement : Replacement} {value : Value}
    {next : Graph} (found : graph.operation? id = some operation)
    (proposed : operation.canonicalize graph.scope = some replacement)
    (replaced : graph.replace id replacement = .succeed value (next.supplant id operation value))
    (builds : Graph.Builds graph replacement value next) :
    Makes graph .canonicalize (next.supplant id operation value)
  | merge {id first : Nat} {operation : Operation} (apart : id ≠ first)
    (found : graph.operation? id = some operation)
    (equal : graph.operation? first = some operation) :
    Makes graph .merge (graph.supplant id operation (.result first))
  | sweep {id : Nat} {operation : Operation} (found : graph.operation? id = some operation)
    (unused : graph.uses (.result id) = []) : Makes graph .sweep (graph.drop id operation)

theorem Pass.Makes.rewrite {pass : Pass} {graph next : Graph} (makes : pass.Makes graph next) :
    graph.Rewrite true next := by
  cases makes with
  | fold found proposed replaced _ =>
    have rewrite := Graph.Rewrite.fold rfl found proposed
    rwa [replaced] at rewrite
  | canonicalize found proposed replaced _ =>
    have rewrite : graph.Rewrite true _ := .canonicalize found proposed
    rwa [replaced] at rewrite
  | merge apart found equal => exact .merge apart found equal
  | sweep found unused => exact .erase found unused

theorem Graph.Merging.makes {graph : Graph} {id first : Nat} {rest : List Nat}
    {met : List (Operation × Nat)} {operation : Operation}
    (merging : graph.Merging (id :: rest) met) (found : graph.operation? id = some operation)
    (equal : (operation, first) ∈ met) :
    Pass.merge.Makes graph (graph.supplant id operation (.result first)) :=
  .merge (merging.apart equal) found (merging.accurate operation first equal)

/-- What a pass did to a graph, if it says whether it changed anything. -/
inductive Pass.Does (pass : Pass) : Bool → Graph → Graph → Prop where
  | nothing (graph : Graph) : Does pass false graph graph
  | changes {before after : Graph}
    (made : Relation.TransGen (fun graph next => pass.Makes graph next) before after) :
    Does pass true before after

theorem Pass.Does.trans {pass : Pass} {first second : Bool} {before middle after : Graph}
    (left : pass.Does first before middle) (right : pass.Does second middle after) :
    pass.Does (first || second) before after := by
  cases left with
  | nothing => exact right
  | changes made =>
    cases right with
    | nothing => exact .changes made
    | changes more => exact .changes (made.trans more)

theorem Pass.Makes.does {pass : Pass} {graph next : Graph} (makes : pass.Makes graph next) :
    pass.Does true graph next :=
  .changes (.single makes)

/-- What holds of a graph and is kept by each rewrite holds after the pass. -/
theorem Pass.Does.holds {pass : Pass} {changed : Bool} {before after : Graph}
    (does : pass.Does changed before after) (holds : Graph → Prop)
    (kept : ∀ graph next, pass.Makes graph next → holds graph → holds next)
    (start : holds before) : holds after := by
  cases does with
  | nothing => exact start
  | changes made =>
    induction made with
    | single makes => exact kept _ _ makes start
    | tail _ makes inductionHypothesis => exact kept _ _ makes inductionHypothesis

/-- A graph that passes can work on: a strictness of at most two operands refuses none of the
operations that are proposed. -/
structure Graph.Workable (graph : Graph) : Prop where
  wellFormed : graph.WellFormed
  acyclic : graph.Acyclic
  lenient : graph.strictness.minArity ≤ 2

theorem Graph.Workable.makes {pass : Pass} {graph next : Graph} (workable : graph.Workable)
    (makes : pass.Makes graph next) : next.Workable := by
  have changes := makes.rewrite.changes workable.wellFormed
  exact ⟨changes.wellFormed workable.wellFormed,
    makes.rewrite.acyclic workable.wellFormed workable.acyclic,
    changes.frame.strictness ▸ workable.lenient⟩

theorem Graph.Workable.does {pass : Pass} {changed : Bool} {before after : Graph}
    (workable : before.Workable) (does : pass.Does changed before after) : after.Workable :=
  does.holds Graph.Workable (fun _ _ makes workable => workable.makes makes) workable

/-- Of the operations that were live, exactly the one of this number is live no more. -/
def Graph.Removes (graph : Graph) (id : Nat) (next : Graph) : Prop :=
  graph.isLive id = true ∧
    ∀ other, graph.isLive other = true → (next.isLive other = true ↔ other ≠ id)

namespace Graph

variable {graph next : Graph} {id : Nat} {operation : Operation}

theorem removes_supplant (wellFormed : next.WellFormed) (extends_ : Extends graph next)
    (found : graph.operation? id = some operation) (value : Value) :
    graph.Removes id (next.supplant id operation value) := by
  refine ⟨(graph.isLive_iff id).mpr ⟨operation, found⟩, fun other live => ?_⟩
  obtain ⟨stored, there⟩ := (graph.isLive_iff other).mp live
  rw [isLive_iff, operation?_supplant wellFormed, extends_.operation? other stored there]
  by_cases here : other = id <;> simp [here]

theorem removes_drop (found : graph.operation? id = some operation) :
    graph.Removes id (graph.drop id operation) := by
  refine ⟨(graph.isLive_iff id).mpr ⟨operation, found⟩, fun other live => ?_⟩
  obtain ⟨stored, there⟩ := (graph.isLive_iff other).mp live
  rw [isLive_iff, operation?_drop, there]
  by_cases here : other = id <;> simp [here]

end Graph

/-! ### Entries -/

/-- The code under which the rewrites of a pass are reported. -/
def Pass.code : Pass → Code
  | .fold => .folded
  | .canonicalize => .canonicalized
  | .merge => .merged
  | .sweep => .erased

/-- One thing that a run did, and the graph as it was at that moment. -/
inductive Entry where
  /-- A pass rewrote an operation. -/
  | rewrite (moment : Graph) (pass : Pass) (id : Nat) (message : String)
  /-- Folding left an operation alone that divides by a constant zero, and warned about it. -/
  | warning (moment : Graph) (id : Nat) (operation : Operation)
  deriving DecidableEq, Repr

namespace Entry

/-- The graph before the rewrite or the warning. -/
def moment : Entry → Graph
  | .rewrite moment _ _ _ => moment
  | .warning moment _ _ => moment

/-- The pass at work. -/
def pass : Entry → Pass
  | .rewrite _ pass _ _ => pass
  | .warning _ _ _ => .fold

def isRewrite : Entry → Bool
  | .rewrite _ _ _ _ => true
  | .warning _ _ _ => false

/-- The operation that was warned about. -/
def warned? : Entry → Option Nat
  | .rewrite _ _ _ _ => none
  | .warning _ id _ => some id

/-- The report about an entry. -/
def diagnostic : Entry → Diagnostic
  | .rewrite _ pass id message => ⟨.note, pass.code, message, some id, [], []⟩
  | .warning _ id operation => { divisionWarning operation with op := some id }

/-- Whether an entry is reported: a warning always is, a rewrite only in a trace. -/
def isReported (trace : Bool) (entry : Entry) : Bool :=
  trace || !entry.isRewrite

/-- The reports about several entries. -/
def reports (trace : Bool) (entries : List Entry) : List Diagnostic :=
  (entries.filter (isReported trace)).map diagnostic

theorem reports_cons (trace : Bool) (entry : Entry) (entries : List Entry) :
    reports trace (entry :: entries) = reports trace [entry] ++ reports trace entries := by
  rw [← List.singleton_append]
  simp only [reports, List.filter_append, List.map_append]

end Entry

/-! ### Logs -/

namespace Workspace

/-- A run takes one step, which makes an entry in its log. -/
inductive Takes (work : Workspace) : Entry → Workspace → Prop where
  | rewrite {pass : Pass} {id : Nat} {next : Graph} (makes : pass.Makes work.graph next)
    (removes : work.graph.Removes id next) (message : String) :
    Takes work (.rewrite work.graph pass id message)
      ⟨next, work.session.record pass.code id message⟩
  | warning {id : Nat} {operation : Operation}
    (found : work.graph.operation? id = some operation)
    (divides : operation.DividesByConstantZero work.graph.scope)
    (unwarned : id ∉ work.session.warned) :
    Takes work (.warning work.graph id operation)
      ⟨work.graph, work.session.warnOnce id (divisionWarning operation)⟩

/-- A run leads from one state to another, and this is its log. -/
inductive Logs : Workspace → List Entry → Workspace → Prop where
  | nil (work : Workspace) : Logs work [] work
  | cons {work middle final : Workspace} {entry : Entry} {entries : List Entry}
    (takes : work.Takes entry middle) (rest : Logs middle entries final) :
    Logs work (entry :: entries) final

variable {work middle next final : Workspace} {entry : Entry} {entries more : List Entry}

theorem Logs.append (first : work.Logs entries middle) (second : middle.Logs more final) :
    work.Logs (entries ++ more) final := by
  induction first with
  | nil => exact second
  | cons takes _ inductionHypothesis => exact .cons takes (inductionHypothesis second)

/-- Each entry was made by a step of the run. -/
theorem Logs.takes (logs : work.Logs entries final) (member : entry ∈ entries) :
    ∃ before after : Workspace, before.Takes entry after := by
  induction logs with
  | nil => cases member
  | @cons work middle final first rest takes logs inductionHypothesis =>
    rcases List.mem_cons.mp member with rfl | later
    · exact ⟨work, middle, takes⟩
    · exact inductionHypothesis later

/-! ### What can be read off a log -/

theorem Takes.plan (takes : work.Takes entry next) : next.session.plan = work.session.plan := by
  cases takes with
  | rewrite _ _ message => exact Session.plan_record _ _ _ _
  | warning _ _ _ => exact Session.plan_warnOnce _ _ _

theorem Takes.changes (takes : work.Takes entry next) :
    next.session.changes = work.session.changes + [entry].countP Entry.isRewrite := by
  cases takes with
  | rewrite _ _ message =>
    simp only [Session.record]
    split <;> rfl
  | warning _ _ _ => exact Session.changes_warnOnce _ _ _

theorem Takes.warned (takes : work.Takes entry next) :
    next.session.warned = entry.warned?.toList ++ work.session.warned := by
  cases takes with
  | rewrite _ _ message => exact Session.warned_record _ _ _ message
  | warning _ _ unwarned =>
    simp only [Session.warnOnce, if_neg unwarned]
    rfl

theorem Takes.nodup (takes : work.Takes entry next) (nodup : work.session.warned.Nodup) :
    next.session.warned.Nodup := by
  rw [takes.warned]
  cases takes with
  | rewrite _ _ message => exact nodup
  | warning _ _ unwarned => exact List.nodup_cons.mpr ⟨unwarned, nodup⟩

theorem Takes.sink (takes : work.Takes entry next) :
    next.session.sink =
      work.session.sink.emitAll (Entry.reports work.session.plan.trace [entry]) := by
  cases takes with
  | rewrite _ _ message =>
    simp only [Session.record]
    split
    · rename_i trace
      rw [trace]
      rfl
    · rename_i silent
      rw [Bool.eq_false_iff.mpr silent]
      rfl
  | @warning id operation _ _ unwarned =>
    have reported :
        Entry.isReported work.session.plan.trace (.warning work.graph id operation) = true :=
      Bool.or_true _
    simp only [Session.warnOnce, if_neg unwarned, Entry.reports, List.filter_cons_of_pos reported]
    rfl

theorem Takes.workable (takes : work.Takes entry next) (workable : work.graph.Workable) :
    next.graph.Workable := by
  cases takes with
  | rewrite makes _ message => exact workable.makes makes
  | warning _ _ _ => exact workable

/-- As many changes were counted as there are rewrites in the log. -/
theorem Logs.changes (logs : work.Logs entries final) :
    final.session.changes = work.session.changes + entries.countP Entry.isRewrite := by
  induction logs with
  | nil => rfl
  | @cons _ _ _ entry rest takes _ inductionHypothesis =>
    rw [inductionHypothesis, takes.changes, ← List.singleton_append (l := rest),
      List.countP_append, Nat.add_assoc]

/-- The operations that were warned about are those of the warnings in the log. -/
theorem Logs.warned (logs : work.Logs entries final) :
    final.session.warned =
      (entries.filterMap Entry.warned?).reverse ++ work.session.warned := by
  induction logs with
  | nil => rfl
  | @cons _ _ _ entry rest takes _ inductionHypothesis =>
    rw [inductionHypothesis, takes.warned]
    cases entry <;> simp [List.filterMap_cons, Entry.warned?]

/-- No operation was warned about twice. -/
theorem Logs.nodup (logs : work.Logs entries final) (nodup : work.session.warned.Nodup) :
    final.session.warned.Nodup := by
  induction logs with
  | nil => exact nodup
  | cons takes _ inductionHypothesis => exact inductionHypothesis (takes.nodup nodup)

/-- What was reported are the reports about the entries. -/
theorem Logs.sink (logs : work.Logs entries final) :
    final.session.sink =
      work.session.sink.emitAll (Entry.reports work.session.plan.trace entries) := by
  induction logs with
  | nil => rfl
  | @cons _ _ _ entry rest takes _ inductionHypothesis =>
    rw [inductionHypothesis, takes.plan, takes.sink, Entry.reports_cons _ entry rest]
    exact (Sink.emitAll_append _ _ _).symm

theorem Logs.workable (logs : work.Logs entries final) (workable : work.graph.Workable) :
    final.graph.Workable := by
  induction logs with
  | nil => exact workable
  | cons takes _ inductionHypothesis => exact inductionHypothesis (takes.workable workable)

/-- What holds of a graph and is kept by every rewrite holds after the run. -/
theorem Logs.holds (logs : work.Logs entries final) (holds : Graph → Prop)
    (kept : ∀ (pass : Pass) (graph next : Graph), graph.Workable → pass.Makes graph next →
      holds graph → holds next) (workable : work.graph.Workable) (start : holds work.graph) :
    holds final.graph := by
  induction logs with
  | nil => exact start
  | cons takes _ inductionHypothesis =>
    refine inductionHypothesis (takes.workable workable) ?_
    cases takes with
    | rewrite makes _ message => exact kept _ _ _ workable makes start
    | warning _ _ _ => exact start

/-- A run without rewrites leaves the graph as it was. -/
theorem Logs.graph_eq (logs : work.Logs entries final)
    (quiet : entries.any Entry.isRewrite = false) : final.graph = work.graph := by
  induction logs with
  | nil => rfl
  | cons takes _ inductionHypothesis =>
    rw [List.any_cons, Bool.or_eq_false_iff] at quiet
    cases takes with
    | rewrite _ _ message => cases quiet.1
    | warning _ _ _ => exact inductionHypothesis quiet.2

end Workspace

/-! ### Passes that account for what they did -/

/-- A pass led from one state to another by steps of its own, taken at these graphs, and it says
whether a rewrite was among them. -/
def Pass.Accounts (pass : Pass) (moments : List Graph) (changed : Bool)
    (before after : Workspace) : Prop :=
  ∃ entries, before.Logs entries after ∧ changed = entries.any Entry.isRewrite ∧
    ∀ entry ∈ entries, entry.pass = pass ∧ entry.moment ∈ moments

namespace Pass.Accounts

variable {pass : Pass} {moments more : List Graph} {first second changed : Bool}
  {before middle after : Workspace}

theorem idle (pass : Pass) (moments : List Graph) (work : Workspace) :
    pass.Accounts moments false work work :=
  ⟨[], .nil work, rfl, nofun⟩

theorem of_takes {entry : Entry} (takes : before.Takes entry after) :
    entry.pass.Accounts [before.graph] entry.isRewrite before after := by
  refine ⟨[entry], .cons takes (.nil after), (Bool.or_false _).symm, fun other member => ?_⟩
  rw [List.mem_singleton.mp member]
  cases takes <;> exact ⟨rfl, List.mem_singleton_self _⟩

theorem of_makes {work : Workspace} {id : Nat} {next : Graph}
    (makes : pass.Makes work.graph next) (removes : work.graph.Removes id next)
    (message : String) :
    pass.Accounts [work.graph] true work ⟨next, work.session.record pass.code id message⟩ :=
  of_takes (.rewrite makes removes message)

theorem trans (left : pass.Accounts moments first before middle)
    (right : pass.Accounts more second middle after) :
    pass.Accounts (moments ++ more) (first || second) before after := by
  obtain ⟨entries, logs, rfl, own⟩ := left
  obtain ⟨others, logsAgain, rfl, ownAgain⟩ := right
  refine ⟨entries ++ others, logs.append logsAgain, List.any_append.symm, fun entry member => ?_⟩
  rcases List.mem_append.mp member with earlier | later
  · exact ⟨(own entry earlier).1, List.mem_append_left _ (own entry earlier).2⟩
  · exact ⟨(ownAgain entry later).1, List.mem_append_right _ (ownAgain entry later).2⟩

theorem mono (accounts : pass.Accounts moments changed before after)
    (subset : moments ⊆ more) : pass.Accounts more changed before after := by
  obtain ⟨entries, logs, same, own⟩ := accounts
  exact ⟨entries, logs, same, fun entry member =>
    ⟨(own entry member).1, subset (own entry member).2⟩⟩

theorem does (accounts : pass.Accounts moments changed before after) :
    pass.Does changed before.graph after.graph := by
  obtain ⟨entries, logs, rfl, own⟩ := accounts
  induction logs with
  | nil work => exact .nothing work.graph
  | cons takes _ inductionHypothesis =>
    have rest := inductionHypothesis fun entry member => own entry (List.mem_cons_of_mem _ member)
    cases takes with
    | rewrite makes _ message =>
      have same := (own _ List.mem_cons_self).1
      subst same
      exact makes.does.trans rest
    | warning _ _ _ => exact rest

theorem workable (accounts : pass.Accounts moments changed before after)
    (workable : before.graph.Workable) : after.graph.Workable :=
  workable.does accounts.does

/-- A pass says whether it has counted a change. -/
theorem changed_iff (accounts : pass.Accounts moments changed before after) :
    changed = true ↔ before.session.changes < after.session.changes := by
  obtain ⟨entries, logs, rfl, _⟩ := accounts
  rw [logs.changes, Nat.lt_add_right_iff_pos, List.countP_pos_iff, List.any_eq_true]

end Pass.Accounts

end BitGraph
