/-
This file proves that passes tell the truth about what they did. A pass that
says it changed nothing has found nothing to do and has left the graph as it
was; one that says it made a change has found something. So the last time that
the passes of a converging simplification are made, none of them finds anything
in the graph that is handed back, and none finds anything in it later.
-/

import BitGraph.Proofs.Simplify.Success

namespace BitGraph

/-! ### Truthful attempts -/

/-- What an attempt did, if it says whether it changed anything: nothing but perhaps to warn, since
there was nothing to be done, or something, since there was. -/
inductive Workspace.Acts (idle : Prop) (before : Workspace) : Bool → Workspace → Prop where
  | rests (nothing : idle) {session : Session} (plan : session.plan = before.session.plan)
    (changes : session.changes = before.session.changes) :
    Acts idle before false ⟨before.graph, session⟩
  | works (something : ¬ idle) {after : Workspace}
    (plan : after.session.plan = before.session.plan) : Acts idle before true after

namespace Workspace.Acts

variable {idle : Prop} {before after : Workspace} {changed : Bool}

theorem plan (acts : Acts idle before changed after) :
    after.session.plan = before.session.plan := by
  cases acts with
  | rests _ plan _ => exact plan
  | works _ plan => exact plan

theorem congr {other : Prop} (same : idle ↔ other) (acts : Acts idle before changed after) :
    Acts other before changed after :=
  propext same ▸ acts

/-- If there was nothing to be done, nothing was changed. -/
theorem of_idle (acts : Acts idle before changed after) (nothing : idle) :
    changed = false ∧ ∃ session, after = ⟨before.graph, session⟩ ∧
      session.changes = before.session.changes := by
  cases acts with
  | @rests _ session _ changes => exact ⟨rfl, session, rfl, changes⟩
  | works something _ => exact absurd nothing something

/-- There was nothing to be done in two attempts together if there was nothing in either. -/
theorem andThen (others : Plan → Graph → Prop) {middle : Workspace} {first second : Bool}
    (left : Acts idle before first middle)
    (right : Acts (others middle.session.plan middle.graph) middle second after) :
    Acts (idle ∧ others before.session.plan before.graph) before (first || second) after := by
  cases left with
  | rests nothing plan changes =>
    -- The second attempt starts from the same graph and plan as the first one.
    have same : others before.session.plan before.graph ↔
        idle ∧ others before.session.plan before.graph := (and_iff_right nothing).symm
    refine congr same ?_
    simp only [plan] at right
    cases right with
    | rests more planAgain changesAgain =>
      exact .rests more (planAgain.trans plan) (changesAgain.trans changes)
    | works something planAgain => exact .works something (planAgain.trans plan)
  | works something plan => exact .works (fun both => something both.1) (right.plan.trans plan)

end Workspace.Acts

/-! ### Steps and walks -/

namespace Workspace

variable {work after : Workspace} {changed : Bool}

/-- An edit that is recorded is a change. -/
theorem edit_acts {Result : Type} {change : Graph → Attempt Graph Result} {code : Code} {id : Nat}
    {message : Workspace → String}
    (made : ((work.edit change).andThen fun _ edited =>
      .succeed true (edited.record code id (message edited))) = .succeed changed after)
    {idle : Prop} (something : ¬ idle) : Acts idle work changed after := by
  obtain ⟨_, middle, edited, recorded⟩ := (Attempt.andThen_eq_succeed_iff _ _ _ _).mp made
  have kept : middle.session = work.session :=
    congrArg (fun attempt => attempt.state.session) edited.symm
  cases recorded
  exact .works something ((Session.plan_record _ _ _ _).trans (congrArg Session.plan kept))

theorem foldStep_acts {id : Nat} (made : foldStep id work = .succeed changed after) :
    Acts (∀ operation, work.graph.operation? id = some operation → ∀ replacement,
      operation.fold work.graph.scope work.session.plan.folding ≠ .folded replacement)
      work changed after := by
  rcases foldStep_cases id work with
    ⟨same, nothing⟩ | ⟨operation, found, declined, same⟩ |
    ⟨operation, replacement, message, found, folded, same⟩
  · cases same.symm.trans made
    exact .rests (fun operation found => (nothing operation found).1) rfl rfl
  · cases same.symm.trans made
    refine .rests ?_ (Session.plan_warnOnce _ _ _) (Session.changes_warnOnce _ _ _)
    intro other there replacement
    cases found.symm.trans there
    rw [declined]
    nofun
  · exact edit_acts (same.symm.trans made) fun nothing =>
      nothing operation found replacement folded

theorem canonicalizeStep_acts {id : Nat}
    (made : canonicalizeStep id work = .succeed changed after) :
    Acts (∀ operation, work.graph.operation? id = some operation →
      operation.canonicalize work.graph.scope = none) work changed after := by
  rcases canonicalizeStep_cases id work with
    ⟨same, nothing⟩ | ⟨operation, replacement, message, found, proposed, same⟩
  · cases same.symm.trans made
    exact .rests nothing rfl rfl
  · refine edit_acts (same.symm.trans made) fun nothing => ?_
    rw [nothing operation found] at proposed
    cases proposed

theorem eraseStep_acts {id : Nat} (made : eraseStep id work = .succeed changed after) :
    Acts False work changed after :=
  edit_acts made not_false

/-- If each step of a walk tells the truth, the walk does. -/
theorem walk_acts {step : Nat → Workspace → Attempt Workspace Bool}
    (idle : Nat → Plan → Graph → Prop)
    (each : ∀ {id : Nat} {work after : Workspace} {changed : Bool},
      step id work = .succeed changed after →
        Acts (idle id work.session.plan work.graph) work changed after)
    {ids : List Nat} (made : walk step ids work = .succeed changed after) :
    Acts (∀ id ∈ ids, idle id work.session.plan work.graph) work changed after := by
  induction ids generalizing work changed after with
  | nil =>
    cases made
    exact .rests nofun rfl rfl
  | cons id rest inductionHypothesis =>
    obtain ⟨first, middle, stepped, others⟩ := (Attempt.andThen_eq_succeed_iff _ _ _ _).mp made
    obtain ⟨second, final, walked, done⟩ := (Attempt.andThen_eq_succeed_iff _ _ _ _).mp others
    cases done
    exact ((each stepped).andThen (fun plan graph => ∀ id ∈ rest, idle id plan graph)
      (inductionHypothesis walked)).congr List.forall_mem_cons.symm

/-- Merging tells the truth: nothing is to be done if the operations differ from each other and
from those that were met. -/
theorem mergeWalk_acts {ids : List Nat} {met : List (Operation × Nat)}
    (merging : work.graph.Merging ids met) (workable : work.graph.Workable)
    (made : mergeWalk ids met work = .succeed changed after) :
    Acts (ids.Pairwise (fun earlier later =>
        work.graph.operation? earlier ≠ work.graph.operation? later) ∧
      ∀ id ∈ ids, ∀ seen ∈ met, work.graph.operation? id ≠ some seen.1) work changed after := by
  induction ids generalizing met work changed after with
  | nil =>
    cases made
    exact .rests ⟨.nil, nofun⟩ rfl rfl
  | cons id rest inductionHypothesis =>
    obtain ⟨operation, found⟩ := merging.live id List.mem_cons_self
    rcases mergeWalk_cons merging workable.wellFormed found with
      ⟨unmet, same⟩ | ⟨first, message, equal, same⟩
    · refine (inductionHypothesis (merging.meet found) workable
        ((same rest).symm.trans made)).congr ?_
      rw [List.pairwise_cons, List.forall_mem_cons, found]
      -- Differing from an operation that was met is the same as differing from one further ahead.
      constructor
      · rintro ⟨apart, others⟩
        refine ⟨⟨fun later member equal => ?_, apart⟩, fun seen member equal => ?_,
          fun later inside seen member => ?_⟩
        · exact others later member _ List.mem_cons_self equal.symm
        · cases equal
          exact unmet seen.2 member
        · exact others later inside seen (List.mem_cons_of_mem _ member)
      · rintro ⟨⟨differs, apart⟩, _, others⟩
        refine ⟨apart, fun later inside => List.forall_mem_cons.mpr ⟨?_, others later inside⟩⟩
        exact (differs later inside).symm
    · obtain ⟨_, final, walked, done⟩ :=
        (Attempt.andThen_eq_succeed_iff _ _ _ _).mp ((same rest).symm.trans made)
      cases done
      have makes := merging.makes found equal
      have others := @inductionHypothesis ⟨_, work.session.record .merged id message⟩ _ _ met
        (merging.merge workable.wellFormed equal) (workable.makes makes) walked
      exact .works (fun nothing => nothing.2 id List.mem_cons_self _ equal found)
        (others.plan.trans (Session.plan_record _ _ _ _))

end Workspace

/-! ### Passes -/

/-- Every operation is in canonical order. -/
def Graph.Settled (graph : Graph) : Prop :=
  ∀ id operation, graph.operation? id = some operation →
    operation.canonicalize graph.scope = none

/-- A pass finds nothing to do in a graph. -/
def Pass.Idle (plan : Plan) (graph : Graph) : Pass → Prop
  | .fold => ∀ id operation, graph.operation? id = some operation → ∀ replacement,
      operation.fold graph.scope plan.folding ≠ .folded replacement
  | .canonicalize => graph.Settled
  | .merge => ∀ first second operation, graph.operation? first = some operation →
      graph.operation? second = some operation → first = second
  | .sweep => ∀ id, graph.isLive id = true → graph.Needs id

section Runs

variable {work after : Workspace} {changed : Bool} (workable : work.graph.Workable)
include workable

theorem Pass.run_acts {pass : Pass} (made : pass.run work = .succeed changed after) :
    Workspace.Acts (pass.Idle work.session.plan work.graph) work changed after := by
  obtain ⟨order, ordered, arrangement⟩ := workable.acyclic.exists_order
  rw [pass.run_of_order ordered] at made
  have live : ∀ {id operation}, work.graph.operation? id = some operation → id ∈ order :=
    fun found => (arrangement.mem_iff _).mpr ⟨_, found⟩
  have everywhere : ∀ holds : Operation → Prop,
      (∀ id ∈ order, ∀ operation, work.graph.operation? id = some operation → holds operation) ↔
        ∀ id operation, work.graph.operation? id = some operation → holds operation :=
    fun holds => ⟨fun here id operation found => here id (live found) operation found,
      fun here id _ => here id⟩
  cases pass with
  | fold =>
    exact (Workspace.walk_acts (fun id plan graph => ∀ operation,
      graph.operation? id = some operation → ∀ replacement,
        operation.fold graph.scope plan.folding ≠ .folded replacement)
      Workspace.foldStep_acts made).congr (everywhere _)
  | canonicalize =>
    exact (Workspace.walk_acts (fun id _ graph => ∀ operation,
      graph.operation? id = some operation → operation.canonicalize graph.scope = none)
      Workspace.canonicalizeStep_acts made).congr (everywhere _)
  | merge =>
    refine (Workspace.mergeWalk_acts (Graph.merging_start arrangement) workable made).congr ?_
    constructor
    · rintro ⟨apart, _⟩ first second operation found equal
      by_contra differs
      have : Std.Symm fun earlier later =>
          work.graph.operation? earlier ≠ work.graph.operation? later := ⟨fun _ _ => Ne.symm⟩
      exact apart.forall (live found) (live equal) differs (found.trans equal.symm)
    · intro nothing
      refine ⟨arrangement.nodup.pairwise_of_forall_ne fun first inside second _ differs same => ?_,
        nofun⟩
      obtain ⟨operation, found⟩ := (arrangement.mem_iff first).mp inside
      exact differs (nothing first second operation found (same ▸ found))
  | sweep =>
    refine (Workspace.walk_acts (fun _ _ _ => False) Workspace.eraseStep_acts made).congr ?_
    have unneeded : ∀ id, id ∈ order.reverse.filter (· ∈ work.graph.unneeded) ↔
        id ∈ order ∧ work.graph.isLive id = true ∧ ¬ work.graph.Needs id := by
      intro id
      rw [List.mem_filter, List.mem_reverse, decide_eq_true_iff, work.graph.mem_unneeded_iff]
    constructor
    · intro nothing id isLive
      by_contra unread
      obtain ⟨operation, found⟩ := (work.graph.isLive_iff id).mp isLive
      exact nothing id ((unneeded id).mpr ⟨live found, isLive, unread⟩)
    · intro needed id member
      obtain ⟨_, isLive, unread⟩ := (unneeded id).mp member
      exact unread (needed id isLive)

namespace Workspace

theorem runPasses_acts {passes : List Pass}
    (made : runPasses passes work = .succeed changed after) :
    Acts (∀ pass ∈ passes, pass.Idle work.session.plan work.graph) work changed after := by
  induction passes generalizing work changed after with
  | nil =>
    cases made
    exact .rests nofun rfl rfl
  | cons pass rest inductionHypothesis =>
    obtain ⟨first, middle, ran, does⟩ := pass.run_made workable
    rw [runPasses, ran, Attempt.succeed_andThen, Attempt.andThen_eq_succeed_iff] at made
    obtain ⟨second, final, others, done⟩ := made
    cases done
    exact ((Pass.run_acts workable ran).andThen
      (fun plan graph => ∀ pass ∈ rest, pass.Idle plan graph)
      (inductionHypothesis (workable.does does) others)).congr List.forall_mem_cons.symm

/-- In the graph that is handed back by passes which came to an end, none of them finds anything
to do. -/
theorem iterate_converged {passes : List Pass} {limit iterations : Nat}
    (made : iterate passes limit work = .succeed (iterations, true) after) :
    1 ≤ limit ∧ after.graph.Workable ∧
      ∀ pass ∈ passes, pass.Idle work.session.plan after.graph := by
  induction limit generalizing work iterations with
  | zero => cases made
  | succ remaining inductionHypothesis =>
    refine ⟨Nat.le_add_left 1 remaining, ?_⟩
    obtain ⟨changed, middle, once, workableThere⟩ := runPasses_made passes workable
    have acts := runPasses_acts workable once
    rw [iterate, once, Attempt.succeed_andThen] at made
    cases acts with
    -- The passes come to an end here, and have left the graph as they found it.
    | rests nothing _ _ =>
      cases made
      exact ⟨workable, nothing⟩
    | works _ plan =>
      rw [if_pos rfl, Attempt.andThen_eq_succeed_iff] at made
      obtain ⟨⟨again, converged⟩, final, iterated, done⟩ := made
      cases done
      exact plan ▸ (inductionHypothesis workableThere iterated).2

/-- Passes that find nothing to do are made once, and nothing is changed. -/
theorem iterate_idle {passes : List Pass} {limit : Nat} (often : 1 ≤ limit)
    (idle : ∀ pass ∈ passes, pass.Idle work.session.plan work.graph) :
    ∃ session, iterate passes limit work = .succeed (1, true) ⟨work.graph, session⟩ ∧
      session.changes = work.session.changes := by
  obtain ⟨remaining, rfl⟩ := Nat.exists_eq_add_of_le' often
  obtain ⟨changed, after, once, _⟩ := runPasses_made passes workable
  obtain ⟨rfl, session, rfl, changes⟩ := (runPasses_acts workable once).of_idle idle
  refine ⟨session, ?_, changes⟩
  rw [iterate, once, Attempt.succeed_andThen]
  rfl

end Workspace

end Runs

end BitGraph
