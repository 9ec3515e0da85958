/-
This file proves that operations which no output needs can be erased one after
the other. Whatever reads an operation that is not needed is not needed either,
so as long as readers are erased before what they read, the next operation in
line has lost all its readers when its turn comes.
-/

import BitGraph.Proofs.Graph.Marking
import BitGraph.Proofs.Simplify.Rewriting

namespace BitGraph.Graph

variable {graph : Graph}

/-! ### Following what is read -/

/-- What is left after operations were followed to the ones they read: none of those that were
to be visited, and nothing that is read by an operation which is not left itself. -/
structure Unmet (graph : Graph) (remaining agenda left : List Nat) : Prop where
  subset : left ⊆ remaining
  apart : ∀ id ∈ agenda, id ∉ left
  closed : ∀ id ∈ remaining, id ∉ left → ∀ producer ∈ graph.producers id, producer ∉ left

theorem unmet_unvisited (graph : Graph) {remaining : List Nat} (nodup : remaining.Nodup)
    (agenda : List Nat) : graph.Unmet remaining agenda (graph.unvisited remaining agenda) := by
  induction remaining, agenda using unvisited.induct graph with
  | case1 remaining =>
    rw [unvisited]
    exact ⟨List.Subset.refl _, nofun, fun id member absent => absurd member absent⟩
  | case2 remaining id rest member _ inductionHypothesis =>
    have followed := inductionHypothesis (nodup.erase id)
    rw [unvisited, dif_pos member]
    have visited : id ∉ graph.unvisited (remaining.erase id) (graph.producers id ++ rest) :=
      fun inside => nodup.not_mem_erase (followed.subset inside)
    refine ⟨fun other inside => List.mem_of_mem_erase (followed.subset inside),
      fun other inside => ?_, fun other inside absent producer produces => ?_⟩
    · rcases List.mem_cons.mp inside with rfl | later
      · exact visited
      · exact followed.apart other (List.mem_append_right _ later)
    · by_cases same : other = id
      · exact followed.apart producer (List.mem_append_left _ (same ▸ produces))
      · exact followed.closed other ((List.mem_erase_of_ne same).mpr inside) absent producer
          produces
  | case3 remaining id rest absent inductionHypothesis =>
    have followed := inductionHypothesis nodup
    rw [unvisited, dif_neg absent]
    refine ⟨followed.subset, fun other inside => ?_, followed.closed⟩
    rcases List.mem_cons.mp inside with rfl | later
    · exact fun left => absent (followed.subset left)
    · exact followed.apart other later

theorem unmet_unneeded (graph : Graph) : graph.Unmet graph.liveIds
    (graph.outputValues.filterMap Value.producer?) graph.unneeded :=
  graph.unmet_unvisited graph.nodup_liveIds _

/-- What is met was to be visited, or an operation that was to be visited depends on it. -/
theorem followed_of_met {remaining agenda : List Nat} (live : ∀ id ∈ remaining, id ∈ graph.liveIds)
    {id : Nat} (member : id ∈ remaining) (met : id ∉ graph.unvisited remaining agenda) :
    ∃ start ∈ agenda, start = id ∨ graph.DependsOn (.result start) (.result id) := by
  induction remaining, agenda using unvisited.induct graph with
  | case1 remaining =>
    rw [unvisited] at met
    exact absurd member met
  | case2 remaining first rest inside _ inductionHypothesis =>
    rw [unvisited, dif_pos inside] at met
    by_cases same : first = id
    · exact ⟨first, List.mem_cons_self, .inl same⟩
    have left : ∀ other ∈ remaining.erase first, other ∈ graph.liveIds := fun other waits =>
      live other (List.mem_of_mem_erase waits)
    obtain ⟨start, next, reaches⟩ :=
      inductionHypothesis left ((List.mem_erase_of_ne (Ne.symm same)).mpr member) met
    rcases List.mem_append.mp next with produces | later
    · have reads := (mem_producers_iff_reads (live first inside) start).mp produces
      refine ⟨first, List.mem_cons_self, .inr ?_⟩
      rcases reaches with rfl | depends
      · exact .direct reads
      · exact .through reads depends
    · exact ⟨start, List.mem_cons_of_mem _ later, reaches⟩
  | case3 remaining first rest absent inductionHypothesis =>
    rw [unvisited, dif_neg absent] at met
    obtain ⟨start, later, reaches⟩ := inductionHypothesis live member met
    exact ⟨start, List.mem_cons_of_mem _ later, reaches⟩

theorem met_of_reads {reader id : Nat} (reads : graph.Reads reader (.result id))
    (met : reader ∉ graph.unneeded) : id ∉ graph.unneeded :=
  graph.unmet_unneeded.closed reader reads.mem_liveIds met id
    ((mem_producers_iff_reads reads.mem_liveIds id).mpr reads)

/-- The operations that are not needed are the live ones that no output depends on. -/
theorem mem_unneeded_iff (graph : Graph) (id : Nat) :
    id ∈ graph.unneeded ↔ graph.isLive id = true ∧ ¬ graph.Needs id := by
  have unmet := graph.unmet_unneeded
  constructor
  · intro unneeded
    refine ⟨(graph.mem_liveIds_iff_isLive id).mp (unmet.subset unneeded), fun needs => ?_⟩
    have met : id ∉ graph.unneeded := needs.holds
      (fun start driven => unmet.apart start (List.mem_filterMap.mpr ⟨_, driven, rfl⟩))
      fun _ _ reads => met_of_reads reads
    exact met unneeded
  · rintro ⟨live, unread⟩
    by_contra met
    have member := (graph.mem_liveIds_iff_isLive id).mpr live
    obtain ⟨start, begins, reaches⟩ := followed_of_met (fun _ inside => inside) member met
    obtain ⟨value, driven, produced⟩ := List.mem_filterMap.mp begins
    match value, produced with
    | .result _, rfl =>
      exact unread ⟨.result start, driven, reaches.imp_left (congrArg Value.result)⟩

/-! ### Erasing from the last to the first -/

/-- What is known while operations are erased: they drive no output, and whatever reads one of
them stands before it. -/
structure Sweeping (graph : Graph) (ids : List Nat) : Prop where
  nodup : ids.Nodup
  live : ∀ id ∈ ids, graph.isLive id = true
  undriven : ∀ id ∈ ids, Value.result id ∉ graph.outputValues
  closed : ∀ reader id, id ∈ ids → graph.Reads reader (.result id) → reader ∈ ids
  behind : ids.Pairwise fun earlier later => ¬ graph.Reads later (.result earlier)
  apart : ∀ id ∈ ids, ¬ graph.Reads id (.result id)

theorem sweeping_start {order : List Nat} (arrangement : graph.Arrangement order) :
    graph.Sweeping (order.reverse.filter (· ∈ graph.unneeded)) := by
  have unmet := graph.unmet_unneeded
  have isLive : ∀ id ∈ order, graph.isLive id = true := fun id member =>
    (graph.isLive_iff id).mpr ((arrangement.mem_iff id).mp member)
  have chosen : ∀ id, id ∈ order.reverse.filter (· ∈ graph.unneeded) ↔
      id ∈ order ∧ id ∈ graph.unneeded := by
    intro id
    rw [List.mem_filter, List.mem_reverse, decide_eq_true_iff]
  refine ⟨(List.nodup_reverse.mpr arrangement.nodup).filter _,
    fun id member => isLive id ((chosen id).mp member).1, fun id member driven => ?_,
    fun reader id member reads => ?_, ?_,
    fun id member => arrangement.apart id ((chosen id).mp member).1⟩
  · refine unmet.apart id ?_ ((chosen id).mp member).2
    exact List.mem_filterMap.mpr ⟨_, driven, rfl⟩
  · obtain ⟨operation, found, read⟩ := reads
    refine (chosen reader).mpr ⟨(arrangement.mem_iff reader).mpr ⟨operation, found⟩, ?_⟩
    -- If the reader were needed, it would have been followed to what it reads.
    by_contra needed
    exact met_of_reads ⟨operation, found, read⟩ needed ((chosen id).mp member).2
  · exact (List.pairwise_reverse.mpr arrangement.behind).filter _

section Sweeping

variable {id : Nat} {rest : List Nat} (sweeping : graph.Sweeping (id :: rest))
include sweeping

/-- Nothing reads the operation whose turn it is. -/
theorem Sweeping.unused (wellFormed : graph.WellFormed) : graph.uses (.result id) = [] := by
  refine List.eq_nil_iff_forall_not_mem.mpr fun use member => ?_
  have reads := (wellFormed.mem_uses_iff _ use).mp member
  cases use with
  | operand reader index =>
    obtain ⟨operation, found, there⟩ := Option.bind_eq_some_iff.mp reads
    have readsHere : graph.Reads reader (.result id) :=
      ⟨operation, found, List.mem_of_getElem? there⟩
    rcases List.mem_cons.mp (sweeping.closed reader id List.mem_cons_self readsHere) with
      rfl | later
    · exact sweeping.apart reader List.mem_cons_self readsHere
    · exact (List.pairwise_cons.mp sweeping.behind).1 reader later readsHere
  | output index =>
    rw [readAt?_output, ← List.getElem?_map] at reads
    exact sweeping.undriven id List.mem_cons_self (List.mem_of_getElem? reads)

theorem Sweeping.drop (operation : Operation) : (graph.drop id operation).Sweeping rest := by
  obtain ⟨absent, nodup⟩ := List.nodup_cons.mp sweeping.nodup
  have before : ∀ {reader value}, (graph.drop id operation).Reads reader value →
      reader ≠ id ∧ graph.Reads reader value := by
    rintro reader value ⟨stored, found, member⟩
    rw [operation?_drop] at found
    split at found
    · cases found
    · rename_i other
      exact ⟨other, stored, found, member⟩
  refine ⟨nodup, fun other member => ?_, fun other member => ?_,
    fun reader other member reads => ?_, ?_, fun other member reads => ?_⟩
  · have differs : other ≠ id := fun same => absent (same ▸ member)
    rw [isLive_iff, operation?_drop, if_neg differs, ← isLive_iff]
    exact sweeping.live other (List.mem_cons_of_mem _ member)
  · rw [outputValues, ← (extends_drop graph id operation).outputs]
    exact sweeping.undriven other (List.mem_cons_of_mem _ member)
  · have inside := sweeping.closed reader other (List.mem_cons_of_mem _ member) (before reads).2
    exact (List.mem_cons.mp inside).resolve_left (before reads).1
  · exact (List.pairwise_cons.mp sweeping.behind).2.imp fun apart reads => apart (before reads).2
  · exact sweeping.apart other (List.mem_cons_of_mem _ member) (before reads).2

end Sweeping

end BitGraph.Graph
