/-
This file breaks passes into rewrites. A rewrite folds an operation, brings one
into canonical order, merges two that are equal, or erases one that nothing
reads. Whatever operations a pass has visited so far, it has made only such
rewrites. For merging this needs to be known of the operations met so far: they
are still what they were when they were met, and read nothing that is still to
be visited.
-/

import BitGraph.Proofs.Graph.Replacing
import BitGraph.Proofs.Proposal.Canonical
import BitGraph.Proofs.Proposal.Folding
import BitGraph.Simplify.Pass

namespace BitGraph

namespace Graph

/-! ### Single rewrites -/

/-- One rewrite of a graph, by folding only if folding is asked for. -/
inductive Rewrite (folds : Bool) (graph : Graph) : Graph → Prop where
  | fold {id : Nat} {operation : Operation} {options : FoldOptions} {replacement : Replacement}
    (enabled : folds = true) (found : graph.operation? id = some operation)
    (proposed : operation.fold graph.scope options = .folded replacement) :
    Rewrite folds graph (graph.replace id replacement).state
  | canonicalize {id : Nat} {operation : Operation} {replacement : Replacement}
    (found : graph.operation? id = some operation)
    (proposed : operation.canonicalize graph.scope = some replacement) :
    Rewrite folds graph (graph.replace id replacement).state
  | merge {id first : Nat} {operation : Operation} (apart : id ≠ first)
    (found : graph.operation? id = some operation)
    (equal : graph.operation? first = some operation) :
    Rewrite folds graph (graph.supplant id operation (.result first))
  | erase {id : Nat} {operation : Operation} (found : graph.operation? id = some operation)
    (unused : graph.uses (.result id) = []) : Rewrite folds graph (graph.drop id operation)

/-- Any number of rewrites, one after the other. -/
abbrev Rewrites (folds : Bool) : Graph → Graph → Prop :=
  Relation.ReflTransGen (Rewrite folds)

variable {folds : Bool} {graph next : Graph}

theorem Rewrite.changes (rewrite : graph.Rewrite folds next) (wellFormed : graph.WellFormed) :
    graph.Changes next := by
  cases rewrite with
  | fold _ _ _ => exact changes_replace graph _ _
  | canonicalize _ _ => exact changes_replace graph _ _
  | merge apart found equal =>
    refine changes_supplant wellFormed found (fun same => apart ?_) (typeOf_result equal)
    exact Value.result.inj same
  | erase found unused => exact .single (.drop found unused)

theorem Rewrites.changes (rewrites : graph.Rewrites folds next) (wellFormed : graph.WellFormed) :
    graph.Changes next := by
  induction rewrites with
  | refl => exact .refl
  | tail _ rewrite inductionHypothesis =>
    exact inductionHypothesis.trans
      (rewrite.changes (inductionHypothesis.wellFormed wellFormed))

/-! ### Erasing -/

/-- Erasing is refused, or it drops an operation that nothing reads. -/
theorem erase_cases (graph : Graph) (id : Nat) :
    (∃ reason, graph.erase id = .fail reason graph) ∨
      ∃ operation, graph.operation? id = some operation ∧ graph.uses (.result id) = [] ∧
        graph.erase id = .succeed () (graph.drop id operation) := by
  cases found : graph.operation? id with
  | none => exact .inl ⟨_, by rw [erase, found]⟩
  | some operation =>
    by_cases unused : graph.uses (.result id) = []
    · exact .inr ⟨operation, rfl, unused, erase_eq_succeed found unused⟩
    · have kept : (graph.uses (.result id)).isEmpty = false := by simpa using unused
      exact .inl ⟨_, by simp only [erase, found, kept]; rfl⟩

/-! ### Operations that wait to be visited -/

/-- What is known of the operations that are still to be visited, each after those that it reads. -/
structure Waiting (graph : Graph) (ids : List Nat) : Prop where
  live : ∀ id ∈ ids, ∃ operation, graph.operation? id = some operation
  nodup : ids.Nodup
  behind : ids.Pairwise fun earlier later => ¬ graph.Reads earlier (.result later)

theorem Arrangement.waiting {order : List Nat} (arrangement : graph.Arrangement order) :
    graph.Waiting order :=
  ⟨fun id member => (arrangement.mem_iff id).mp member, arrangement.nodup, arrangement.behind⟩

theorem Waiting.sublist {ids fewer : List Nat} (waiting : graph.Waiting ids)
    (sublist : fewer.Sublist ids) : graph.Waiting fewer :=
  ⟨fun id member => waiting.live id (sublist.subset member), waiting.nodup.sublist sublist,
    waiting.behind.sublist sublist⟩

section Waiting

variable {id : Nat} {rest : List Nat} (waiting : graph.Waiting (id :: rest))
include waiting

theorem Waiting.tail : graph.Waiting rest :=
  waiting.sublist (List.sublist_cons_self id rest)

theorem Waiting.not_mem : id ∉ rest :=
  (List.nodup_cons.mp waiting.nodup).1

/-- The operation whose turn it is reads none of the others. -/
theorem Waiting.unread {later : Nat} (member : later ∈ rest) :
    ¬ graph.Reads id (.result later) :=
  (List.pairwise_cons.mp waiting.behind).1 later member

/-- Supplanting the operation whose turn it is keeps the others in order, as long as they get no
new readers among themselves. -/
theorem Waiting.supplant (wellFormed : next.WellFormed) (extends_ : Extends graph next)
    {operation : Operation} {value : Value}
    (before : ∀ reader later, later ∈ rest →
      (next.supplant id operation value).Reads reader (.result later) →
        graph.Reads reader (.result later)) :
    (next.supplant id operation value).Waiting rest where
  live other member := by
    obtain ⟨stored, found⟩ := waiting.tail.live other member
    have differs : other ≠ id := by
      rintro rfl
      exact waiting.not_mem member
    rw [operation?_supplant wellFormed, if_neg differs, extends_.operation? _ _ found]
    exact ⟨_, rfl⟩
  nodup := waiting.tail.nodup
  behind := waiting.tail.behind.imp_of_mem fun _ member apart reads =>
    apart (before _ _ member reads)

end Waiting

/-! ### Merging -/

/-- What is known while equal operations are merged. The operations that were met are live and
unchanged, and they read nothing that is still to be visited. -/
structure Merging (graph : Graph) (ids : List Nat) (met : List (Operation × Nat)) : Prop
    extends Waiting graph ids where
  accurate : ∀ operation first, (operation, first) ∈ met →
    graph.operation? first = some operation
  visited : ∀ operation first, (operation, first) ∈ met → first ∉ ids
  unread : ∀ operation first, (operation, first) ∈ met → ∀ id ∈ ids,
    Value.result id ∉ operation.operands

section Merging

variable {id : Nat} {rest : List Nat} {met : List (Operation × Nat)} {operation : Operation}

theorem merging_start {ids : List Nat} (arrangement : graph.Arrangement ids) :
    graph.Merging ids [] where
  toWaiting := arrangement.waiting
  accurate := nofun
  visited := nofun
  unread := nofun

theorem Merging.sublist {ids fewer : List Nat} (merging : graph.Merging ids met)
    (sublist : fewer.Sublist ids) : graph.Merging fewer met where
  toWaiting := merging.toWaiting.sublist sublist
  accurate := merging.accurate
  visited operation first member inside :=
    merging.visited operation first member (sublist.subset inside)
  unread operation first member id inside :=
    merging.unread operation first member id (sublist.subset inside)

/-- The operation whose turn it is was not met before. -/
theorem Merging.apart (merging : graph.Merging (id :: rest) met) {first : Nat}
    (equal : (operation, first) ∈ met) : id ≠ first := by
  rintro rfl
  exact merging.visited operation id equal List.mem_cons_self

/-- An operation that equals none met so far is met itself. -/
theorem Merging.meet (merging : graph.Merging (id :: rest) met)
    (found : graph.operation? id = some operation) :
    graph.Merging rest ((operation, id) :: met) where
  toWaiting := merging.toWaiting.tail
  accurate other first member := by
    rcases List.mem_cons.mp member with same | earlier
    · cases same
      exact found
    · exact merging.accurate other first earlier
  visited other first member inside := by
    rcases List.mem_cons.mp member with same | earlier
    · cases same
      exact merging.not_mem inside
    · exact merging.visited other first earlier (List.mem_cons_of_mem _ inside)
  unread other first member later inside read := by
    rcases List.mem_cons.mp member with same | earlier
    · cases same
      exact merging.toWaiting.unread inside ⟨operation, found, read⟩
    · exact merging.unread other first earlier later (List.mem_cons_of_mem _ inside) read

/-- An operation that equals one met before is supplanted by it. -/
theorem Merging.merge (merging : graph.Merging (id :: rest) met) (wellFormed : graph.WellFormed)
    {first : Nat} (equal : (operation, first) ∈ met) :
    (graph.supplant id operation (.result first)).Merging rest met where
  toWaiting := by
    refine merging.toWaiting.supplant wellFormed (.refl graph) fun reader later inLater reads => ?_
    obtain ⟨rewritten, found, member⟩ := reads
    rw [operation?_supplant wellFormed] at found
    split at found
    · cases found
    · obtain ⟨before, there, rfl⟩ := Option.map_eq_some_iff.mp found
      obtain ⟨read, inside, same⟩ := List.mem_map.mp member
      by_cases here : read = .result id
      · rw [here, Value.substitute_self] at same
        cases same
        exact absurd (List.mem_cons_of_mem _ inLater) (merging.visited operation first equal)
      · rw [Value.substitute_other here] at same
        exact ⟨before, there, same ▸ inside⟩
  accurate other survivor member := by
    have differs : survivor ≠ id := by
      rintro rfl
      exact merging.visited other survivor member List.mem_cons_self
    rw [operation?_supplant wellFormed, if_neg differs, merging.accurate other survivor member]
    exact congrArg some (Operation.substitute_of_not_mem
      (merging.unread other survivor member id List.mem_cons_self) _)
  visited other survivor member inside :=
    merging.visited other survivor member (List.mem_cons_of_mem _ inside)
  unread other survivor member later inside :=
    merging.unread other survivor member later (List.mem_cons_of_mem _ inside)

end Merging

end Graph

/-! ### Steps of a pass -/

namespace Workspace

variable {work : Workspace} {id : Nat}

theorem graph_replace (work : Workspace) (id : Nat) (replacement : Replacement) (code : Code)
    (message : String) :
    (work.replace id replacement code message).state.graph =
      (work.graph.replace id replacement).state := by
  simp only [replace, edit]
  obtain ⟨result, after⟩ := work.graph.replace id replacement
  cases result <;> rfl

theorem replace_succeed {replacement : Replacement} {value : Value} {next : Graph}
    (replaced : work.graph.replace id replacement = .succeed value next) (code : Code)
    (message : String) :
    work.replace id replacement code message =
      .succeed true ⟨next, work.session.record code id message⟩ := by
  simp only [replace, edit]
  rw [replaced]
  rfl

theorem graph_eraseStep (work : Workspace) (id : Nat) :
    (eraseStep id work).state.graph = (work.graph.erase id).state := by
  simp only [eraseStep, edit]
  obtain ⟨result, after⟩ := work.graph.erase id
  cases result <;> rfl

theorem eraseStep_succeed {next : Graph} (erased : work.graph.erase id = .succeed () next) :
    ∃ message, eraseStep id work =
      .succeed true ⟨next, work.session.record .erased id message⟩ := by
  simp only [eraseStep, edit]
  rw [erased]
  exact ⟨_, rfl⟩

/-- Folding leaves an operation alone for which nothing is proposed, it warns about one that cannot
be evaluated, or it replaces one by what is proposed. -/
theorem foldStep_cases (id : Nat) (work : Workspace) :
    (foldStep id work = .succeed false work ∧
        ∀ operation, work.graph.operation? id = some operation →
          (∀ replacement, operation.fold work.graph.scope work.session.plan.folding ≠
            .folded replacement) ∧
          operation.fold work.graph.scope work.session.plan.folding ≠
            .declined (.bits .divisionByZero)) ∨
      (∃ operation, work.graph.operation? id = some operation ∧
        operation.fold work.graph.scope work.session.plan.folding =
          .declined (.bits .divisionByZero) ∧
        foldStep id work = .succeed false
          ⟨work.graph, work.session.warnOnce id (divisionWarning operation)⟩) ∨
      ∃ operation replacement message, work.graph.operation? id = some operation ∧
        operation.fold work.graph.scope work.session.plan.folding = .folded replacement ∧
          foldStep id work = work.replace id replacement .folded message := by
  unfold foldStep
  cases found : work.graph.operation? id with
  | none => exact .inl ⟨rfl, nofun⟩
  | some operation =>
    cases outcome : operation.fold work.graph.scope work.session.plan.folding with
    | folded replacement =>
      exact .inr (.inr ⟨operation, replacement, "folded to " ++ replacement.render, rfl, outcome,
        by simp only [outcome]⟩)
    | unchanged =>
      refine .inl ⟨by simp only [outcome], ?_⟩
      rintro _ ⟨⟩
      simp [outcome]
    | declined reason =>
      simp only [outcome]
      by_cases cause : reason = .bits .divisionByZero
      · subst cause
        exact .inr (.inl ⟨operation, rfl, outcome, rfl⟩)
      · have other : reason.isDivisionByZero = false := by
          unfold GraphError.isDivisionByZero
          split
          · exact absurd rfl cause
          · rfl
        refine .inl ⟨by rw [other]; rfl, ?_⟩
        rintro _ ⟨⟩
        simp [outcome, cause]

/-- Bringing operands into canonical order leaves an operation alone that has no other canonical
form, and replaces it otherwise. -/
theorem canonicalizeStep_cases (id : Nat) (work : Workspace) :
    (canonicalizeStep id work = .succeed false work ∧
        ∀ operation, work.graph.operation? id = some operation →
          operation.canonicalize work.graph.scope = none) ∨
      ∃ operation replacement message, work.graph.operation? id = some operation ∧
        operation.canonicalize work.graph.scope = some replacement ∧
          canonicalizeStep id work = work.replace id replacement .canonicalized message := by
  unfold canonicalizeStep
  cases found : work.graph.operation? id with
  | none => exact .inl ⟨rfl, nofun⟩
  | some operation =>
    cases proposed : operation.canonicalize work.graph.scope with
    | none =>
      refine .inl ⟨by simp only [proposed], fun other same => ?_⟩
      cases same
      exact proposed
    | some replacement =>
      exact .inr ⟨operation, replacement, "canonicalized to " ++ replacement.render, rfl, proposed,
        by simp only [proposed]⟩

/-- Merging passes over an operation that equals none met so far, and lets the first equal one
supplant it otherwise, whichever operations are visited after it. -/
theorem mergeWalk_cons {rest : List Nat} {met : List (Operation × Nat)} {operation : Operation}
    (merging : work.graph.Merging (id :: rest) met) (wellFormed : work.graph.WellFormed)
    (found : work.graph.operation? id = some operation) :
    ((∀ first, (operation, first) ∉ met) ∧ ∀ others,
        mergeWalk (id :: others) met work = mergeWalk others ((operation, id) :: met) work) ∨
      ∃ first message, (operation, first) ∈ met ∧ ∀ others,
        mergeWalk (id :: others) met work =
          (mergeWalk others met ⟨work.graph.supplant id operation (.result first),
            work.session.record .merged id message⟩).andThen
              fun _ work => .succeed true work := by
  have stored := Graph.stored?_of_operation? found
  cases known : met.lookup operation with
  | none =>
    refine .inl ⟨fun first member => ?_, fun others => ?_⟩
    · simpa using List.lookup_eq_none_iff.mp known _ member
    · rw [mergeWalk]
      simp only [stored, known]
  | some first =>
    obtain ⟨before, after, same, _⟩ := List.lookup_eq_some_iff.mp known
    have member : (operation, first) ∈ met := by rw [same]; simp
    have equal := merging.accurate operation first member
    have apart : Value.result id ≠ .result first := fun same =>
      merging.apart member (Value.result.inj same)
    have moved := Graph.replaceUses_eq_succeed apart (Graph.typeOf_result found)
      (Graph.typeOf_result equal)
    have supplanted :=
      Graph.supplant_eq_succeed wellFormed found apart (Graph.typeOf_result equal)
    rw [moved, Attempt.succeed_andThen] at supplanted
    refine .inr ⟨first, "merged into %" ++ Numeral.write 10 first, member, fun others => ?_⟩
    rw [mergeWalk]
    simp only [stored, known, edit, moved, Attempt.within, Attempt.succeed, Attempt.andThen]
    simp only [supplanted, Attempt.succeed]
    rfl

end Workspace

end BitGraph
