/-
This file proves that merging identifies exactly the operations that stand for the
same expression. Each is merged into the first one in the order of the pass. The
operations that were met are all that will not be visited any more, they stay what
they were when they were met, and no two of them are equal. So in the end no two
operations are equal, and then no two stand for the same expression. On the other
hand an operation and the one it is merged into stand for the same one, now and
later, and have the same result.
-/

import BitGraph.Proofs.Graph.Unfolding
import BitGraph.Proofs.History
import BitGraph.Proofs.Simplify.Idling

namespace BitGraph

namespace Graph

/-! ### Merges, one after the other -/

/-- Operations are merged: the uses of each are moved to an equal one, and it is erased. -/
inductive Merges : Graph → List (Nat × Nat) → Graph → Prop where
  | nil (graph : Graph) : Merges graph [] graph
  | cons {graph moved next after : Graph} {id first count : Nat} {operation : Operation}
    {rest : List (Nat × Nat)} (apart : id ≠ first) (found : graph.operation? id = some operation)
    (equal : graph.operation? first = some operation)
    (moves : graph.replaceUses (.result id) (.result first) = .succeed count moved)
    (erases : moved.erase id = .succeed () next) (later : Merges next rest after) :
    Merges graph ((id, first) :: rest) after

/-- Where the uses of a value have moved to. -/
def follow (merges : List (Nat × Nat)) (value : Value) : Value :=
  merges.foldl (fun value merge => Value.substitute (.result merge.1) (.result merge.2) value) value

section Merges

variable {graph next after : Graph} {id first : Nat} {operation : Operation}
  {merges : List (Nat × Nat)}

theorem Merges.supplant {rest : List (Nat × Nat)} (wellFormed : graph.WellFormed)
    (apart : id ≠ first) (found : graph.operation? id = some operation)
    (equal : graph.operation? first = some operation)
    (later : (graph.supplant id operation (.result first)).Merges rest after) :
    graph.Merges ((id, first) :: rest) after := by
  have differs : Value.result id ≠ .result first := fun same => apart (Value.result.inj same)
  have typed := typeOf_result equal
  have moves := replaceUses_eq_succeed differs (typeOf_result found) typed
  have supplants := supplant_eq_succeed wellFormed found differs typed
  rw [moves, Attempt.succeed_andThen] at supplants
  exact .cons apart found equal moves supplants later

/-- What holds without merges, and before each merge if it does after it, holds of all merges. -/
theorem Merges.induct {motive : Graph → List (Nat × Nat) → Prop}
    (merged : graph.Merges merges after) (wellFormed : graph.WellFormed) (none_ : motive after [])
    (one : ∀ (graph : Graph) (id first : Nat) (operation : Operation) (rest : List (Nat × Nat)),
      graph.WellFormed → id ≠ first → graph.operation? id = some operation →
        graph.operation? first = some operation →
        (graph.supplant id operation (.result first)).WellFormed →
        (graph.supplant id operation (.result first)).Merges rest after →
        motive (graph.supplant id operation (.result first)) rest →
          motive graph ((id, first) :: rest)) : motive graph merges := by
  induction merged with
  | nil graph => exact none_
  | @cons graph moved next after id first count operation rest apart found equal moves erases later
      inductionHypothesis =>
    have differs : Value.result id ≠ .result first := fun same => apart (Value.result.inj same)
    have supplants := supplant_eq_succeed wellFormed found differs (typeOf_result equal)
    rw [moves, Attempt.succeed_andThen, erases] at supplants
    obtain ⟨_, rfl⟩ := Attempt.succeed_inj.mp supplants
    have rewrite : graph.Rewrite false (graph.supplant id operation (.result first)) :=
      .merge apart found equal
    have wellFormedNext := (rewrite.changes wellFormed).wellFormed wellFormed
    exact one graph id first operation rest wellFormed apart found equal wellFormedNext later
      (inductionHypothesis wellFormedNext none_ one)

variable (merged : graph.Merges merges after) (wellFormed : graph.WellFormed)
include merged wellFormed

theorem Merges.rewrites : graph.Rewrites false after :=
  merged.induct (motive := fun graph _ => graph.Rewrites false after) wellFormed .refl
    fun _ _ _ _ _ _ apart found equal _ _ later => .head (.merge apart found equal) later

/-- Merged operations share their place with those that they were merged into. -/
theorem Merges.shares : graph.Shares (follow merges) after :=
  merged.induct (motive := fun graph merges => graph.Shares (follow merges) after) wellFormed
    (.refl after) fun _ _ _ _ _ wellFormed apart found equal _ _ later =>
      (shares_supplant wellFormed apart found equal).trans later

theorem Merges.size_eq : after.nodes.size = graph.nodes.size :=
  merged.induct (motive := fun graph _ => after.nodes.size = graph.nodes.size) wellFormed rfl
    fun _ _ _ _ _ _ _ _ _ _ _ later => by
      rw [later, Graph.supplant, size_drop, size_redirect]

/-- Those operations stay whose uses have not moved. -/
theorem Merges.isLive_iff (id : Nat) : after.isLive id = true ↔
    graph.isLive id = true ∧ follow merges (.result id) = .result id := by
  refine merged.induct (motive := fun graph merges => ∀ id, after.isLive id = true ↔
    graph.isLive id = true ∧ follow merges (.result id) = .result id) wellFormed
    (fun _ => (and_iff_left rfl).symm) ?_ id
  intro graph gone first operation rest wellFormed apart found equal wellFormedNext laterMerges
    later id
  have wasLive : ∀ number, (graph.supplant gone operation (.result first)).isLive number = true ↔
      number ≠ gone ∧ graph.isLive number = true := by
    intro number
    rw [Graph.isLive_iff, Graph.isLive_iff, operation?_supplant wellFormed]
    by_cases same : number = gone <;> simp [same]
  by_cases same : id = gone
  · subst same
    have moved : follow ((id, first) :: rest) (.result id) = follow rest (.result first) :=
      congrArg (follow rest) (Value.substitute_self _ _)
    -- The operation that it was merged into ends up in a place that is live after this merge.
    obtain ⟨rewritten, there⟩ := (Graph.isLive_iff _ _).mp
      ((wasLive first).mpr ⟨apart.symm, (graph.isLive_iff first).mpr ⟨operation, equal⟩⟩)
    obtain ⟨place, elsewhere, here⟩ := (laterMerges.shares wellFormedNext).result first _ there
    have other := (wasLive place).mp
      ((later place).mp ((after.isLive_iff place).mpr ⟨_, here⟩)).1
    refine iff_of_false (fun live => ?_) fun ⟨_, stays⟩ => ?_
    · exact ((wasLive id).mp ((later id).mp live).1).1 rfl
    · rw [moved, elsewhere] at stays
      exact other.1 (Value.result.inj stays)
  · have moved : follow ((gone, first) :: rest) (.result id) = follow rest (.result id) :=
      congrArg (follow rest) (Value.substitute_other fun read => same (Value.result.inj read))
    rw [later, moved, wasLive, and_iff_right same]

omit merged wellFormed in
/-- Uses move to places that stand before, if each operation is merged into one that does. -/
theorem follow_le (place : Nat → Nat) (earlier : ∀ merge ∈ merges, place merge.2 < place merge.1)
    {target : Nat} (moved : follow merges (.result id) = .result target) :
    place target ≤ place id := by
  induction merges generalizing id with
  | nil =>
    cases moved
    exact Nat.le_refl _
  | cons merge rest inductionHypothesis =>
    obtain ⟨before, others⟩ := List.forall_mem_cons.mp earlier
    rw [follow, List.foldl_cons] at moved
    by_cases here : id = merge.1
    · subst here
      rw [Value.substitute_self] at moved
      exact (inductionHypothesis others moved).trans (Nat.le_of_lt before)
    · rw [Value.substitute_other fun read => here (Value.result.inj read)] at moved
      exact inductionHypothesis others moved

end Merges

/-! ### What is known of the operations that were met -/

/-- What more is known while equal operations are merged: those that will not be visited any more
were met, and no two that were met are equal. -/
structure Collecting (graph : Graph) (ids : List Nat) (met : List (Operation × Nat)) : Prop
    extends Merging graph ids met where
  complete : ∀ id operation, id ∉ ids → graph.operation? id = some operation →
    (operation, id) ∈ met
  single : ∀ operation first second, (operation, first) ∈ met → (operation, second) ∈ met →
    first = second

section Collecting

variable {graph : Graph} {id : Nat} {rest : List Nat} {met : List (Operation × Nat)}
  {operation : Operation}

theorem collecting_start {order : List Nat} (arrangement : graph.Arrangement order) :
    graph.Collecting order [] where
  toMerging := merging_start arrangement
  complete id operation absent found :=
    absurd ((arrangement.mem_iff id).mpr ⟨operation, found⟩) absent
  single := nofun

theorem Collecting.meet (collecting : graph.Collecting (id :: rest) met)
    (found : graph.operation? id = some operation)
    (unmet : ∀ first, (operation, first) ∉ met) :
    graph.Collecting rest ((operation, id) :: met) where
  toMerging := collecting.toMerging.meet found
  complete other stored absent there := by
    by_cases here : other = id
    · subst here
      cases found.symm.trans there
      exact List.mem_cons_self
    · exact List.mem_cons_of_mem _ (collecting.complete other stored
        (List.not_mem_cons_of_ne_of_not_mem here absent) there)
  single stored first second left right := by
    rcases List.mem_cons.mp left with same | left <;>
      rcases List.mem_cons.mp right with also | right
    · cases same
      cases also
      rfl
    · cases same
      exact absurd right (unmet second)
    · cases also
      exact absurd left (unmet first)
    · exact collecting.single stored first second left right

theorem Collecting.merge (collecting : graph.Collecting (id :: rest) met)
    (wellFormed : graph.WellFormed) {first : Nat} (equal : (operation, first) ∈ met) :
    (graph.supplant id operation (.result first)).Collecting rest met where
  toMerging := collecting.toMerging.merge wellFormed equal
  complete other stored absent there := by
    rw [operation?_supplant wellFormed] at there
    split at there
    · cases there
    rename_i differs
    obtain ⟨before, found, rfl⟩ := Option.map_eq_some_iff.mp there
    have inside := collecting.complete other before
      (List.not_mem_cons_of_ne_of_not_mem differs absent) found
    rwa [Operation.substitute_of_not_mem
      (collecting.unread before other inside id List.mem_cons_self)]
  single := collecting.single

/-- When all were visited, no two operations are equal. -/
theorem Collecting.distinct (collecting : graph.Collecting [] met) : graph.Distinct :=
  fun first second operation left right => collecting.single operation first second
    (collecting.complete first operation List.not_mem_nil left)
    (collecting.complete second operation List.not_mem_nil right)

end Collecting

end Graph

/-! ### What a pass of merging does -/

/-- A walk that goes through merges operations into others that stand before them, until no two are
equal. -/
theorem Workspace.mergeWalk_merges {place : Nat → Nat} {ids : List Nat}
    {met : List (Operation × Nat)} {work : Workspace} (wellFormed : work.graph.WellFormed)
    (collecting : work.graph.Collecting ids met)
    (ascending : ids.Pairwise fun earlier later => place earlier < place later)
    (behind : ∀ entry ∈ met, ∀ id ∈ ids, place entry.2 < place id) :
    ∃ merges after, mergeWalk ids met work = .succeed (!merges.isEmpty) after ∧
      work.graph.Merges merges after.graph ∧ (merges = [] → after = work) ∧
      (∀ merge ∈ merges, place merge.2 < place merge.1) ∧ after.graph.Distinct := by
  induction ids generalizing met work with
  | nil => exact ⟨[], work, rfl, .nil _, fun _ => rfl, nofun, collecting.distinct⟩
  | cons id rest inductionHypothesis =>
    obtain ⟨operation, found⟩ := collecting.live id List.mem_cons_self
    obtain ⟨before, others⟩ := List.pairwise_cons.mp ascending
    have behindRest : ∀ entry ∈ met, ∀ later ∈ rest, place entry.2 < place later :=
      fun entry member later inside => behind entry member later (List.mem_cons_of_mem _ inside)
    rcases mergeWalk_cons collecting.toMerging wellFormed found with
      ⟨unmet, same⟩ | ⟨first, message, equal, same⟩
    · rw [same rest]
      refine inductionHypothesis wellFormed (collecting.meet found unmet) others ?_
      exact List.forall_mem_cons.mpr ⟨before, behindRest⟩
    · have apart := collecting.apart equal
      have isFirst := collecting.accurate operation first equal
      have rewrite : work.graph.Rewrite false (work.graph.supplant id operation (.result first)) :=
        .merge apart found isFirst
      obtain ⟨merges, after, walked, merged, _, earlier, distinct⟩ := @inductionHypothesis met
        ⟨work.graph.supplant id operation (.result first), work.session.record .merged id message⟩
        ((rewrite.changes wellFormed).wellFormed wellFormed)
        (collecting.merge wellFormed equal) others behindRest
      refine ⟨(id, first) :: merges, after, ?_, .supplant wellFormed apart found isFirst merged,
        nofun, ?_, distinct⟩
      · rw [same rest, walked]
        rfl
      · exact List.forall_mem_cons.mpr ⟨behind _ equal id List.mem_cons_self, earlier⟩

/-- A pass of merging over a graph without circles goes through, until no two operations are
equal. -/
theorem Pass.merge_merges {work : Workspace} (wellFormed : work.graph.WellFormed)
    (acyclic : work.graph.Acyclic) :
    ∃ order merges after, work.graph.order = .ok order ∧
      Pass.merge.run work = .succeed (!merges.isEmpty) after ∧
      work.graph.Merges merges after.graph ∧ (merges = [] → after = work) ∧
      (∀ merge ∈ merges, order.idxOf merge.2 < order.idxOf merge.1) ∧ after.graph.Distinct := by
  obtain ⟨order, ordered, arrangement⟩ := acyclic.exists_order
  have ascending : order.Pairwise fun earlier later => order.idxOf earlier < order.idxOf later := by
    refine List.pairwise_iff_getElem.mpr fun first second here there below => ?_
    rwa [arrangement.nodup.idxOf_getElem, arrangement.nodup.idxOf_getElem]
  obtain ⟨merges, after, walked, rest⟩ := Workspace.mergeWalk_merges wellFormed
    (Graph.collecting_start arrangement) ascending nofun
  exact ⟨order, merges, after, ordered, (Pass.merge.run_of_order ordered).trans walked, rest⟩

namespace Graph

variable {graph after : Graph} {order : List Nat} {merges : List (Nat × Nat)}

theorem Distinct.merges_eq_nil (distinct : graph.Distinct) (merged : graph.Merges merges after) :
    merges = [] := by
  cases merged with
  | nil => rfl
  | cons apart found equal _ _ _ => exact absurd (distinct _ _ _ found equal) apart

/-- What merging makes of a graph whose operations it visits in this order. -/
structure Merged (graph : Graph) (order : List Nat) (merges : List (Nat × Nat)) (after : Graph) :
    Prop where
  /-- The uses of operations were moved to others, and those operations were erased. -/
  edits : graph.Merges merges after
  /-- No operation was created. -/
  size : after.nodes.size = graph.nodes.size
  /-- The operations stay whose uses were not moved. -/
  live : ∀ id, after.isLive id = true ↔
    graph.isLive id = true ∧ follow merges (.result id) = .result id
  /-- An operation whose uses were moved, or were not, is represented by one that is what the first
  one was, but reads what represents its operands. Outputs are driven by what represents their
  values. -/
  shares : graph.Shares (follow merges) after
  /-- An operation is represented by the first one in the order that stands for the same
  expression. -/
  first : ∀ id, graph.isLive id = true → ∃ survivor expression,
    follow merges (.result id) = .result survivor ∧ after.isLive survivor = true ∧
      graph.Unfolds (.result id) expression ∧ graph.Unfolds (.result survivor) expression ∧
        ∀ other, graph.Unfolds (.result other) expression →
          order.idxOf survivor ≤ order.idxOf other
  /-- Operations are represented by the same one exactly if they stand for the same expression. -/
  same : ∀ first second, graph.isLive first = true → graph.isLive second = true →
    (follow merges (.result first) = follow merges (.result second) ↔
      ∃ expression, graph.Unfolds (.result first) expression ∧
        graph.Unfolds (.result second) expression)

theorem Merges.merged (merged : graph.Merges merges after) (wellFormed : graph.WellFormed)
    (acyclic : graph.Acyclic) (distinct : after.Distinct)
    (earlier : ∀ merge ∈ merges, order.idxOf merge.2 < order.idxOf merge.1) :
    graph.Merged order merges after := by
  have shares := merged.shares wellFormed
  have unfolds : ∀ id, graph.isLive id = true →
      ∃ expression, graph.Unfolds (.result id) expression :=
    fun id live => acyclic.exists_unfolds wellFormed live
  -- Values that have moved to the same place stand for what that place stands for.
  have expression_eq : ∀ {first second left right},
      follow merges (.result first) = follow merges (.result second) →
        graph.Unfolds (.result first) left → graph.Unfolds (.result second) right →
          left = right := by
    intro first second left right moved unfoldsLeft unfoldsRight
    exact (moved ▸ shares.unfolds unfoldsLeft).unique (shares.unfolds unfoldsRight)
  have place_eq : ∀ {first second expression},
      graph.Unfolds (.result first) expression → graph.Unfolds (.result second) expression →
        follow merges (.result first) = follow merges (.result second) := fun left right =>
    distinct.value_unique (shares.unfolds left) (shares.unfolds right)
  refine ⟨merged, merged.size_eq wellFormed, merged.isLive_iff wellFormed, shares,
    fun id live => ?_, fun first second liveFirst liveSecond => ⟨fun moved => ?_, ?_⟩⟩
  · obtain ⟨operation, found⟩ := (graph.isLive_iff id).mp live
    obtain ⟨survivor, moved, there⟩ := shares.result id operation found
    have stays := (after.isLive_iff survivor).mpr ⟨_, there⟩
    obtain ⟨wasLive, unmoved⟩ := (merged.isLive_iff wellFormed survivor).mp stays
    obtain ⟨expression, unfold⟩ := unfolds id live
    obtain ⟨other, unfoldSurvivor⟩ := unfolds survivor wasLive
    cases expression_eq (moved.trans unmoved.symm) unfold unfoldSurvivor
    refine ⟨survivor, expression, moved, stays, unfold, unfoldSurvivor, fun other unfoldOther => ?_⟩
    exact follow_le (fun id => order.idxOf id) earlier
      ((place_eq unfoldOther unfoldSurvivor).trans unmoved)
  · obtain ⟨left, unfoldsLeft⟩ := unfolds first liveFirst
    obtain ⟨right, unfoldsRight⟩ := unfolds second liveSecond
    cases expression_eq moved unfoldsLeft unfoldsRight
    exact ⟨left, unfoldsLeft, unfoldsRight⟩
  · rintro ⟨expression, left, right⟩
    exact place_eq left right

/-- Something was merged exactly if two operations are represented by the same one. -/
theorem Merges.nonempty_iff (merged : graph.Merges merges after) :
    (!merges.isEmpty) = true ↔ ∃ first second, first ≠ second ∧ graph.isLive first = true ∧
      graph.isLive second = true ∧
        follow merges (.result first) = follow merges (.result second) := by
  cases merged with
  | nil =>
    refine iff_of_false nofun ?_
    rintro ⟨first, second, differs, _, _, moved⟩
    exact differs (Value.result.inj moved)
  | @cons _ _ _ _ id first _ operation rest apart found equal _ _ _ =>
    refine iff_of_true rfl ⟨id, first, apart, (graph.isLive_iff id).mpr ⟨operation, found⟩,
      (graph.isLive_iff first).mpr ⟨operation, equal⟩, congrArg (follow rest) ?_⟩
    have other : Value.result first ≠ .result id := fun same => apart (Value.result.inj same).symm
    exact (Value.substitute_self _ _).trans (Value.substitute_other other).symm

/-- Merging goes through on every graph without circles, whatever the strictness. Two operations are
represented by the same one afterwards exactly if they stand for the same expression, and that one
is the first of them. The pass reports a change exactly if two operations were merged, another one
changes nothing at all, and evaluating gives the same as before, errors included, whatever the
inputs are given. -/
theorem merging_shares_expressions {graph : Graph} (reachable : graph.Reachable)
    (acyclic : graph.Acyclic) (session : Session) :
    ∃ order merges changed after, graph.order = .ok order ∧
      Pass.merge.run ⟨graph, session⟩ = .succeed changed after ∧
      graph.Merged order merges after.graph ∧
      (changed = true ↔ ∃ first second, first ≠ second ∧ graph.isLive first = true ∧
        graph.isLive second = true ∧
          follow merges (.result first) = follow merges (.result second)) ∧
      (∀ other : Session,
        Pass.merge.run ⟨after.graph, other⟩ = .succeed false ⟨after.graph, other⟩) ∧
      ∀ assignment, after.graph.outcomes assignment = graph.outcomes assignment ∧
        after.graph.evaluate assignment = graph.evaluate assignment := by
  have wellFormed : (⟨graph, session⟩ : Workspace).graph.WellFormed := reachable.wellFormed
  obtain ⟨order, merges, after, ordered, ran, merged, _, earlier, distinct⟩ :=
    Pass.merge_merges wellFormed acyclic
  have rewrites := merged.rewrites wellFormed
  have wellFormedAfter := (rewrites.changes wellFormed).wellFormed wellFormed
  have acyclicAfter := rewrites.acyclic wellFormed acyclic
  refine ⟨order, merges, _, after, ordered, ran, merged.merged wellFormed acyclic distinct earlier,
    merged.nonempty_iff, fun other => ?_, fun assignment => ?_⟩
  · have start : (⟨after.graph, other⟩ : Workspace).graph.WellFormed := wellFormedAfter
    obtain ⟨_, more, _, _, ranAgain, mergedAgain, unchanged, _⟩ :=
      Pass.merge_merges start acyclicAfter
    cases distinct.merges_eq_nil mergedAgain
    cases unchanged rfl
    exact ranAgain
  · have same := (merged.shares wellFormed).outcomes_eq wellFormed acyclic wellFormedAfter
      acyclicAfter assignment
    exact ⟨same, by rw [evaluate_eq_outcomes, evaluate_eq_outcomes, same]⟩

/-- The difference of two sums that are written alike, down to their constants. -/
def doubledSum : Graph :=
  let input := (addInput {} "x" byte).2
  let one := (input.build (.constant ⟨byte.width, byte.positive, 1⟩)).state
  let again := (one.build (.constant ⟨byte.width, byte.positive, 1⟩)).state
  let first := (again.build (.variadic .add [.input 0, .result 0])).state
  let second := (first.build (.variadic .add [.input 0, .result 1])).state
  let difference := (second.build (.binary .sub (.result 2) (.result 3))).state
  (difference.addOutput "d" (.result 4)).state

/-- The sums are merged because their constants are. -/
theorem merging_shares_expressions_doubledSum :
    doubledSum.Reachable ∧ doubledSum.Acyclic ∧
      ∃ merges after,
        Pass.merge.run ⟨doubledSum, { plan := {}, sink := {} }⟩ = .succeed true after ∧
        follow merges (.result 2) = follow merges (.result 3) ∧
        after.graph.outputValues = doubledSum.outputValues.map (follow merges) ∧
        Pass.merge.run after = .succeed false after := by
  have reachable : doubledSum.Reachable :=
    ⟨{}, .step (.step (.step (.step (.step (.step (.step .start (.addInput _ _)) (.build _))
      (.build _)) (.build _)) (.build _)) (.build _)) (.addOutput _ _)⟩
  have acyclic : doubledSum.Acyclic := acyclic_of_ascending (by decide)
  obtain ⟨order, merges, changed, after, _, ran, merged, works, again, _⟩ :=
    merging_shares_expressions reachable acyclic { plan := {}, sink := {} }
  let one : Expression := .apply .constant [] (.constant 1) byte
  have constants : doubledSum.Unfolds (.result 0) one ∧ doubledSum.Unfolds (.result 1) one :=
    ⟨.of_operands (by decide : doubledSum.operation? 0 = some ⟨.constant, [], .constant 1, byte⟩)
        .nil,
      .of_operands (by decide : doubledSum.operation? 1 = some ⟨.constant, [], .constant 1, byte⟩)
        .nil⟩
  let sum : Expression := .apply .add [.input 0, one] .none byte
  have left : doubledSum.Unfolds (.result 2) sum := .of_operands
    (by decide : doubledSum.operation? 2 = some ⟨.add, [.input 0, .result 0], .none, byte⟩)
    (.cons (.input 0) (.cons constants.1 .nil))
  have right : doubledSum.Unfolds (.result 3) sum := .of_operands
    (by decide : doubledSum.operation? 3 = some ⟨.add, [.input 0, .result 1], .none, byte⟩)
    (.cons (.input 0) (.cons constants.2 .nil))
  have shared := (merged.same 2 3 (by decide) (by decide)).mpr ⟨sum, left, right⟩
  cases works.mpr ⟨2, 3, by decide, by decide, by decide, shared⟩
  exact ⟨reachable, acyclic, merges, after, ran, shared, merged.shares.outputs,
    again after.session⟩

end Graph

end BitGraph
