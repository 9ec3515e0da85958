/-
This file says which operations cannot be put in order. They are those that
depend on an operation that reads its own result, at once or through others. They
need not read their own results themselves: what merely stands downstream of a
circle cannot be placed either. When none of those that wait can be placed, these
are the ones that are left, and the least of them is reported.
-/

import BitGraph.Proofs.Graph.Countdown

namespace BitGraph.Graph

variable {graph : Graph} {waiting : List Nat} {id : Nat}

/-- An operation reads its own result, at once or through others. -/
def Circular (graph : Graph) (id : Nat) : Prop :=
  graph.DependsOn (.result id) (.result id)

/-- An operation depends on one that reads its own result. -/
def Stuck (graph : Graph) (id : Nat) : Prop :=
  ∃ source, graph.Circular source ∧ graph.DependsOn (.result id) (.result source)

theorem Circular.stuck (circular : graph.Circular id) : graph.Stuck id :=
  ⟨id, circular, circular⟩

theorem Stuck.isLive (stuck : graph.Stuck id) : graph.isLive id = true := by
  obtain ⟨_, _, depends⟩ := stuck
  obtain ⟨_, _, same, reads⟩ := depends.exists_reads
  cases same
  exact reads.isLive

/-- An operation that is stuck reads another one that is. -/
theorem Stuck.exists_reads (stuck : graph.Stuck id) :
    ∃ source, graph.Stuck source ∧ graph.Reads id (.result source) := by
  obtain ⟨source, circular, depends⟩ := stuck
  cases depends with
  | direct reads => exact ⟨source, circular.stuck, reads⟩
  | through reads rest =>
    obtain ⟨middle, _, rfl, _⟩ := rest.exists_reads
    exact ⟨middle, ⟨source, circular, rest⟩, reads⟩

/-- If all that wait read another one that waits, all of them are stuck: what one of them depends
on includes a circle. -/
theorem stuck_of_each_reads
    (each : ∀ id ∈ waiting, ∃ other ∈ waiting, graph.Reads id (.result other))
    (member : id ∈ waiting) : graph.Stuck id := by
  classical
  let sources := waiting.filter fun other => graph.DependsOn (.result id) (.result other)
  have mem_sources : ∀ {other}, other ∈ sources ↔
      other ∈ waiting ∧ graph.DependsOn (.result id) (.result other) := by
    simp [sources]
  have nonempty : sources ≠ [] := by
    obtain ⟨other, waits, reads⟩ := each id member
    exact List.ne_nil_of_mem (mem_sources.mpr ⟨waits, .direct reads⟩)
  obtain ⟨source, inside, circular⟩ := exists_circular_of_stuck nonempty fun other inside => by
    obtain ⟨waits, depends⟩ := mem_sources.mp inside
    obtain ⟨next, waitsToo, reads⟩ := each other waits
    exact ⟨next, mem_sources.mpr ⟨waitsToo, depends.trans (.direct reads)⟩, reads⟩
  exact ⟨source, circular, (mem_sources.mp inside).2⟩

/-- Nothing that is stuck is ever placed, and all that is left in the end is stuck. -/
theorem least_of_arrange (sublist : waiting.Sublist graph.liveIds)
    (waits : ∀ id, graph.Stuck id → id ∈ waiting) {reason : GraphError}
    (failed : graph.arrange waiting = .error reason) :
    ∃ id, reason = .cyclic id ∧ graph.Stuck id ∧ ∀ other, graph.Stuck other → id ≤ other := by
  fun_induction Graph.arrange graph waiting with
  | case1 waiting id found _ inductionHypothesis =>
    have nodup : waiting.Nodup := graph.nodup_liveIds.sublist sublist
    have ready := List.find?_some found
    have left : ∀ other, graph.Stuck other → other ∈ waiting.erase id := by
      intro other stuck
      refine nodup.mem_erase_iff.mpr ⟨?_, waits other stuck⟩
      rintro rfl
      obtain ⟨source, stuckToo, reads⟩ := stuck.exists_reads
      exact not_reads_of_ready ready (waits source stuckToo) reads
    cases rest : graph.arrange (waiting.erase id) with
    | error other =>
      rw [rest] at failed
      cases failed
      exact inductionHypothesis (List.erase_sublist.trans sublist) left rest
    | ok placed =>
      rw [rest] at failed
      cases failed
  | case2 found => cases failed
  | case3 stuck rest found =>
    cases failed
    have each : ∀ id ∈ stuck :: rest, ∃ other ∈ stuck :: rest, graph.Reads id (.result other) :=
      fun id member =>
        exists_reads_of_not_ready (sublist.mem member) (List.find?_eq_none.mp found id member)
    refine ⟨stuck, rfl, stuck_of_each_reads each List.mem_cons_self, fun other isStuck => ?_⟩
    have ascending := graph.ascending_liveIds.sublist sublist
    rcases List.mem_cons.mp (waits other isStuck) with rfl | later
    · exact Nat.le_refl _
    · exact Nat.le_of_lt ((List.pairwise_cons.mp ascending).1 other later)

/-- What is reported is the least operation that is stuck. -/
theorem order_eq_cyclic_iff : graph.order = .error (.cyclic id) ↔
    graph.Stuck id ∧ ∀ other, graph.Stuck other → id ≤ other := by
  have least : ∀ {id}, graph.order = .error (.cyclic id) →
      graph.Stuck id ∧ ∀ other, graph.Stuck other → id ≤ other := by
    intro id failed
    have waits : ∀ id, graph.Stuck id → id ∈ graph.liveIds := fun id stuck =>
      (graph.mem_liveIds_iff_isLive id).mpr stuck.isLive
    obtain ⟨found, same, isLeast⟩ := least_of_arrange (.refl _) waits failed
    cases same
    exact isLeast
  refine ⟨least, fun ⟨⟨source, circular, depends⟩, isLeast⟩ => ?_⟩
  obtain ⟨found, failed⟩ := order_of_not_acyclic fun acyclic => acyclic source circular
  obtain ⟨stuck, below⟩ := least failed
  have same : id = found :=
    Nat.le_antisymm (isLeast found stuck) (below id ⟨source, circular, depends⟩)
  exact same ▸ failed

/-- The least operation that is stuck reads its own result exactly if no operation that is stuck
has a lower number than all that read their own results. -/
theorem circular_iff_of_least (least : ∀ other, graph.Stuck other → id ≤ other)
    (stuck : graph.Stuck id) : graph.Circular id ↔
      ∀ other, graph.Stuck other → ∃ source, graph.Circular source ∧ source ≤ other := by
  constructor
  · exact fun circular other stuckToo => ⟨id, circular, least other stuckToo⟩
  · intro reached
    obtain ⟨source, circular, below⟩ := reached id stuck
    exact Nat.le_antisymm below (least source circular.stuck) ▸ circular

end BitGraph.Graph
