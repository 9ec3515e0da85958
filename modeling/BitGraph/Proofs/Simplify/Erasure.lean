/-
This file proves that sweeping erases exactly the operations that no output needs.
The loop that marks the needed ones comes to an end on every graph, with circles
or without. Without circles those that were not marked are erased one after the
other, from the last to the first, and none of them is in use any more when its
turn comes. The needed operations and the outputs are left as they are, so the
graph evaluates to the same. With circles nothing is erased at all.
-/

import BitGraph.Proofs.Simplify.Success

namespace BitGraph

namespace Graph

/-! ### Erasures, one after the other -/

/-- Operations are erased one after the other, and none of them is refused. -/
inductive Erases : Graph → List Nat → Graph → Prop where
  | nil (graph : Graph) : Erases graph [] graph
  | cons {graph next after : Graph} {id : Nat} {rest : List Nat}
    (erased : graph.erase id = .succeed () next) (later : Erases next rest after) :
    Erases graph (id :: rest) after

variable {graph after : Graph} {ids : List Nat}

/-- What holds without erasures, and before each erasure if it does after it, holds of all. -/
theorem Erases.induct {motive : Graph → List Nat → Prop} (erases : graph.Erases ids after)
    (none_ : motive after [])
    (one : ∀ (graph : Graph) (id : Nat) (operation : Operation) (rest : List Nat),
      graph.operation? id = some operation → graph.uses (.result id) = [] →
        motive (graph.drop id operation) rest → motive graph (id :: rest)) : motive graph ids := by
  induction erases with
  | nil graph => exact none_
  | @cons graph next after id rest erased _ inductionHypothesis =>
    rcases graph.erase_cases id with ⟨reason, refused⟩ | ⟨operation, found, unused, made⟩
    · cases refused.symm.trans erased
    · cases made.symm.trans erased
      exact one graph id operation rest found unused (inductionHypothesis none_)

theorem Erases.changes (erases : graph.Erases ids after) : graph.Changes after :=
  erases.induct (motive := fun graph _ => graph.Changes after) .refl
    fun _ _ _ _ found unused later => .head (.drop found unused) later

/-- What is left was there before, and the outputs stay as they are. -/
theorem Erases.extends (erases : graph.Erases ids after) : Extends after graph :=
  erases.induct (motive := fun graph _ => Extends after graph) (.refl after)
    fun graph id operation _ _ _ later => later.trans (graph.extends_drop id operation)

/-- Those operations are gone that were erased, and the others are what they were. -/
theorem Erases.operation? (erases : graph.Erases ids after) (id : Nat) :
    after.operation? id = if id ∈ ids then none else graph.operation? id := by
  refine erases.induct (motive := fun graph ids =>
    after.operation? id = if id ∈ ids then none else graph.operation? id) rfl ?_
  intro graph gone operation rest _ _ later
  rw [later, operation?_drop]
  by_cases same : id = gone
  · rw [if_pos same, if_pos (List.mem_cons.mpr (.inl same)), ite_self]
  · rw [if_neg same]
    simp only [List.mem_cons, same, false_or]

/-- Something was erased exactly if an operation is gone. -/
theorem Erases.nonempty_iff (erases : graph.Erases ids after)
    (live : ∀ id ∈ ids, graph.isLive id = true) :
    (!ids.isEmpty) = true ↔ ∃ id, graph.isLive id = true ∧ after.isLive id = false := by
  have stays : ∀ id, after.isLive id = true ↔ id ∉ ids ∧ graph.isLive id = true := by
    intro id
    rw [after.isLive_iff, graph.isLive_iff, erases.operation?]
    by_cases gone : id ∈ ids <;> simp [gone]
  rw [Bool.not_eq_true', List.isEmpty_eq_false_iff]
  constructor
  · intro some_
    obtain ⟨id, rest, rfl⟩ := List.exists_cons_of_ne_nil some_
    refine ⟨id, live id List.mem_cons_self, Bool.eq_false_of_not_eq_true fun left => ?_⟩
    exact ((stays id).mp left).1 List.mem_cons_self
  · rintro ⟨id, was, gone⟩ rfl
    exact Bool.false_ne_true (gone.symm.trans ((stays id).mpr ⟨List.not_mem_nil, was⟩))

end Graph

/-- Operations that can be erased from the first to the last are. -/
theorem Workspace.walk_erases {ids : List Nat} {work : Workspace}
    (wellFormed : work.graph.WellFormed) (sweeping : work.graph.Sweeping ids) :
    ∃ after, walk eraseStep ids work = .succeed (!ids.isEmpty) after ∧
      work.graph.Erases ids after.graph := by
  induction ids generalizing work with
  | nil => exact ⟨work, rfl, .nil _⟩
  | cons id rest inductionHypothesis =>
    obtain ⟨operation, found⟩ :=
      (work.graph.isLive_iff id).mp (sweeping.live id List.mem_cons_self)
    have unused := sweeping.unused wellFormed
    have erased := Graph.erase_eq_succeed found unused
    obtain ⟨message, stepped⟩ := eraseStep_succeed erased
    obtain ⟨after, walked, erases⟩ := @inductionHypothesis
      ⟨work.graph.drop id operation, work.session.record .erased id message⟩
      (wellFormed.drop found unused) (sweeping.drop operation)
    refine ⟨after, ?_, .cons erased erases⟩
    rw [walk, stepped, Attempt.succeed_andThen, walked]
    rfl

/-- A pass of sweeping over a graph without circles goes through, and erases what it visits. -/
theorem Pass.sweep_erases {work : Workspace} (wellFormed : work.graph.WellFormed) {order : List Nat}
    (ordered : work.graph.order = .ok order) (arrangement : work.graph.Arrangement order) :
    ∃ after, Pass.sweep.run work =
        .succeed (!(Pass.sweep.visits work.graph order).isEmpty) after ∧
      work.graph.Erases (Pass.sweep.visits work.graph order) after.graph := by
  obtain ⟨after, walked, erases⟩ :=
    Workspace.walk_erases wellFormed (Graph.sweeping_start arrangement)
  exact ⟨after, (Pass.sweep.run_of_order ordered).trans walked, erases⟩

namespace Graph

/-! ### What sweeping leaves -/

/-- What sweeping leaves of a graph whose operations stand in this order, if these were marked. -/
structure Swept (graph : Graph) (order marked : List Nat) (after : Graph) : Prop where
  /-- The operations that were not marked were erased, the last one first, and none was in use. -/
  erases : graph.Erases (order.reverse.filter (· ∉ marked)) after
  /-- Those are left that an output needs. -/
  live : ∀ id, after.isLive id = true ↔ graph.Needs id
  /-- They read what they have read. -/
  operations : ∀ id, graph.Needs id → after.operation? id = graph.operation? id
  /-- The outputs are what they were. -/
  outputs : after.outputs = graph.outputs

variable {graph after : Graph} {order marked : List Nat}

theorem Erases.swept (wellFormed : graph.WellFormed) (arrangement : graph.Arrangement order)
    (needed : ∀ id, id ∈ marked ↔ graph.Needs id)
    (erases : graph.Erases (order.reverse.filter (· ∉ marked)) after) :
    graph.Swept order marked after := by
  have erased : ∀ id, id ∈ order.reverse.filter (· ∉ marked) ↔
      graph.isLive id = true ∧ ¬ graph.Needs id := by
    intro id
    rw [List.mem_filter, List.mem_reverse, decide_eq_true_iff, needed, arrangement.mem_iff,
      graph.isLive_iff]
  have kept : ∀ id, graph.Needs id → after.operation? id = graph.operation? id := fun id needs => by
    rw [erases.operation?, if_neg fun gone => ((erased id).mp gone).2 needs]
  refine ⟨erases, fun id => ⟨fun live => ?_, fun needs => ?_⟩, kept, erases.extends.outputs.symm⟩
  · obtain ⟨operation, found⟩ := (after.isLive_iff id).mp live
    rw [erases.operation?] at found
    split at found
    · cases found
    · rename_i stays
      by_contra unread
      exact stays ((erased id).mpr ⟨(graph.isLive_iff id).mpr ⟨operation, found⟩, unread⟩)
  · rw [after.isLive_iff, kept id needs, ← graph.isLive_iff]
    exact wellFormed.isLive_of_needs needs

/-- The marking loop comes to an end on every graph, and the operations that it has marked are those
that the outputs depend on; the pass erases the others. Without circles it goes through: no
operation is still in use when its turn comes, the needed ones and the outputs stay as they are, the
pass reports a change exactly if an operation was erased, and evaluating gives the same as before,
errors included, whatever the inputs are given. With circles it is refused and changes nothing. -/
theorem sweeping_erases_unneeded {graph : Graph} (reachable : graph.Reachable)
    (session : Session) :
    ∃ steps marked,
      steps ≤ (graph.outputValues.filterMap Value.producer?).length +
        (graph.liveIds.map fun id => (graph.producers id).length).sum ∧
      (graph.markNext)^[steps] graph.markStart = ⟨marked, []⟩ ∧ marked.Nodup ∧
      (∀ id, id ∈ marked ↔ graph.Needs id) ∧
      (∀ id, id ∈ graph.unneeded ↔ graph.isLive id = true ∧ id ∉ marked) ∧
      (graph.Acyclic → ∃ order changed after, graph.order = .ok order ∧
        Pass.sweep.run ⟨graph, session⟩ = .succeed changed after ∧
        graph.Swept order marked after.graph ∧
        (changed = true ↔ ∃ id, graph.isLive id = true ∧ after.graph.isLive id = false) ∧
        ∀ assignment, after.graph.outcomes assignment = graph.outcomes assignment ∧
          after.graph.evaluate assignment = graph.evaluate assignment) ∧
      (¬ graph.Acyclic →
        ∃ id, Pass.sweep.run ⟨graph, session⟩ = .fail (.cyclic id) ⟨graph, session⟩) := by
  have wellFormed := reachable.wellFormed
  obtain ⟨steps, few, marked, ended, marks⟩ := wellFormed.marking_ends graph.marks_start
  have needed := marks.mem_iff
  have unneeded : ∀ id, id ∈ graph.unneeded ↔ graph.isLive id = true ∧ id ∉ marked := fun id => by
    rw [graph.mem_unneeded_iff, needed]
  refine ⟨steps, marked, Marking.left_markStart graph ▸ few, ended, marks.nodup, needed, unneeded,
    fun acyclic => ?_, Pass.run_cyclic .sweep ⟨graph, session⟩⟩
  obtain ⟨order, ordered, arrangement⟩ := acyclic.exists_order
  have visits : Pass.sweep.visits graph order = order.reverse.filter (· ∉ marked) := by
    refine List.filter_congr fun id member => decide_eq_decide.mpr ?_
    rw [unneeded, and_iff_right]
    exact (graph.isLive_iff id).mpr ((arrangement.mem_iff id).mp (List.mem_reverse.mp member))
  have start : (⟨graph, session⟩ : Workspace).graph.WellFormed := wellFormed
  obtain ⟨after, ran, erases⟩ := Pass.sweep_erases start ordered arrangement
  rw [visits] at ran erases
  refine ⟨order, _, after, ordered, ran, erases.swept wellFormed arrangement needed,
    erases.nonempty_iff fun id member => ?_, fun assignment => ?_⟩
  · rw [List.mem_filter, List.mem_reverse] at member
    exact (graph.isLive_iff id).mpr ((arrangement.mem_iff id).mp member.1)
  · obtain ⟨results, small, large⟩ := outcomes_of_extends erases.extends
      (erases.changes.wellFormed wellFormed) wellFormed acyclic assignment
    have same := small.trans large.symm
    exact ⟨same, by rw [evaluate_eq_outcomes, evaluate_eq_outcomes, same]⟩

/-- A sum that drives an output, beside a product that is only read by an operation that nothing
reads. -/
def unreadProduct : Graph :=
  let input := (addInput {} "x" byte).2
  let three := (input.build (.constant ⟨byte.width, byte.positive, 3⟩)).state
  let sum := (three.build (.variadic .add [.input 0, .result 0])).state
  let product := (sum.build (.variadic .mul [.input 0, .result 0])).state
  let reader := (product.build (.reduce .orReduce (.result 2))).state
  (reader.addOutput "y" (.result 1)).state

/-- The product is erased with its reader, and a conjunction that reads itself stays. -/
theorem sweeping_erases_unneeded_samples :
    unreadProduct.Reachable ∧ unreadProduct.Acyclic ∧
      (∃ after, Pass.sweep.run ⟨unreadProduct, { plan := {}, sink := {} }⟩ = .succeed true after ∧
        after.graph.liveIds = [0, 1] ∧
        ∀ assignment, after.graph.evaluate assignment = unreadProduct.evaluate assignment) ∧
      selfReading.Reachable ∧ ¬ selfReading.Acyclic ∧
      ∃ id, Pass.sweep.run ⟨selfReading, { plan := {}, sink := {} }⟩ =
        .fail (.cyclic id) ⟨selfReading, { plan := {}, sink := {} }⟩ := by
  have reachable : unreadProduct.Reachable :=
    ⟨{}, .step (.step (.step (.step (.step (.step .start (.addInput _ _)) (.build _)) (.build _))
      (.build _)) (.build _)) (.addOutput _ _)⟩
  have acyclic : unreadProduct.Acyclic := acyclic_of_ascending (by decide)
  obtain ⟨_, _, _, _, _, _, _, erases, _⟩ :=
    sweeping_erases_unneeded reachable { plan := {}, sink := {} }
  obtain ⟨_, _, _, _, _, _, _, _, refuses⟩ :=
    sweeping_erases_unneeded reachable_selfReading { plan := {}, sink := {} }
  obtain ⟨_, changed, after, _, ran, _, _, same⟩ := erases acyclic
  have works : (Pass.sweep.run ⟨unreadProduct, { plan := {}, sink := {} }⟩).result = .ok true := by
    cbv
  have left : (Pass.sweep.run
    ⟨unreadProduct, { plan := {}, sink := {} }⟩).state.graph.liveIds = [0, 1] := by cbv
  rw [ran] at works left
  cases works
  exact ⟨reachable, acyclic, ⟨after, ran, left, fun assignment => (same assignment).2⟩,
    reachable_selfReading, circular_selfReading, refuses circular_selfReading⟩

end Graph

end BitGraph
