/-
This file proves that operations can be put in order exactly if they do not read
each other in a circle. An order that is found is an arrangement, so the place
of an operation in it is a rank: operations read only values of lower rank.
Conversely, a graph with such ranks has no circles. Ranks are what the edits are
judged by: as long as an edit keeps some ranks, it closes no circle.
-/

import BitGraph.Graph.Dependence
import BitGraph.Graph.Order
import BitGraph.Proofs.Graph.UseLists

namespace BitGraph.Graph

variable {graph : Graph}

/-! ### Ranks -/

/-- Each operation has a higher rank than what it reads. Numbers that have not been given out
have the lowest rank. -/
structure Ranked (graph : Graph) (rank : Value → Nat) : Prop where
  reads : ∀ id value, graph.Reads id value → rank value < rank (.result id)
  fresh : ∀ id, graph.nodes.size ≤ id → rank (.result id) = 0

theorem Ranked.lt_of_dependsOn {rank : Value → Nat} (ranked : graph.Ranked rank)
    {reader source : Value} (depends : graph.DependsOn reader source) :
    rank source < rank reader := by
  induction depends with
  | direct reads => exact ranked.reads _ _ reads
  | through reads _ inductionHypothesis =>
    exact inductionHypothesis.trans (ranked.reads _ _ reads)

theorem Ranked.acyclic {rank : Value → Nat} (ranked : graph.Ranked rank) : graph.Acyclic :=
  fun _ circular => Nat.lt_irrefl _ (ranked.lt_of_dependsOn circular)

/-! ### Arranging -/

theorem Reads.mem_liveIds {id : Nat} {value : Value} (reads : graph.Reads id value) :
    id ∈ graph.liveIds :=
  (graph.mem_liveIds_iff_isLive id).mpr reads.isLive

/-- What a live operation reads of the results of others. -/
theorem mem_producers_iff_reads {id : Nat} (live : id ∈ graph.liveIds) (other : Nat) :
    other ∈ graph.producers id ↔ graph.Reads id (.result other) := by
  obtain ⟨operation, found⟩ := (graph.mem_liveIds_iff id).mp live
  rw [producers_of_operation? found, operation.mem_producers_iff, Reads, found]
  simp

/-- An operation is ready if it reads none of those that wait. -/
theorem ready_iff {waiting : List Nat} {id : Nat} (live : id ∈ graph.liveIds) :
    graph.ready waiting id = true ↔ ∀ other ∈ waiting, ¬ graph.Reads id (.result other) := by
  simp only [ready, List.all_eq_true, mem_producers_iff_reads live, Bool.not_eq_true',
    List.contains_eq_mem, decide_eq_false_iff_not]
  exact ⟨fun apart other waits reads => apart other reads waits,
    fun apart other reads waits => apart other waits reads⟩

theorem not_reads_of_ready {waiting : List Nat} {id other : Nat}
    (ready : graph.ready waiting id = true) (member : other ∈ waiting) :
    ¬ graph.Reads id (.result other) :=
  fun reads => (ready_iff reads.mem_liveIds).mp ready other member reads

theorem exists_reads_of_not_ready {waiting : List Nat} {id : Nat} (live : id ∈ graph.liveIds)
    (blocked : ¬ graph.ready waiting id = true) :
    ∃ other ∈ waiting, graph.Reads id (.result other) := by
  rw [ready_iff live] at blocked
  push Not at blocked
  exact blocked

/-- What is placed stands in an order in which no operation reads a later one. -/
theorem arrange_ok {waiting ids : List Nat} (arranged : graph.arrange waiting = .ok ids) :
    ids.Perm waiting ∧
      ids.Pairwise (fun earlier later => ¬ graph.Reads earlier (.result later)) ∧
        ∀ id ∈ ids, ¬ graph.Reads id (.result id) := by
  fun_induction Graph.arrange graph waiting generalizing ids with
  | case1 waiting id found _ inductionHypothesis =>
    have member := List.mem_of_find?_eq_some found
    have ready := List.find?_some found
    cases rest : graph.arrange (waiting.erase id) with
    | error reason =>
      rw [rest] at arranged
      cases arranged
    | ok placed =>
      rw [rest] at arranged
      cases arranged
      obtain ⟨perm, behind, apart⟩ := inductionHypothesis rest
      have waits : ∀ other ∈ placed, other ∈ waiting := fun other inside =>
        List.mem_of_mem_erase (perm.mem_iff.mp inside)
      refine ⟨(perm.cons id).trans (List.perm_cons_erase member).symm, ?_, ?_⟩
      · exact .cons (fun other inside => not_reads_of_ready ready (waits other inside)) behind
      · intro other inside
        rcases List.mem_cons.mp inside with rfl | inside
        · exact not_reads_of_ready ready member
        · exact apart other inside
  | case2 found =>
    cases arranged
    exact ⟨.refl _, .nil, nofun⟩
  | case3 stuck rest found => cases arranged

/-- Placing fails only if operations are left each of which reads another one of them. -/
theorem arrange_error {waiting : List Nat} (live : ∀ id ∈ waiting, id ∈ graph.liveIds)
    {reason : GraphError} (failed : graph.arrange waiting = .error reason) :
    ∃ stuck rest, reason = .cyclic stuck ∧
      ∀ id ∈ stuck :: rest, ∃ other ∈ stuck :: rest, graph.Reads id (.result other) := by
  fun_induction Graph.arrange graph waiting with
  | case1 waiting id found _ inductionHypothesis =>
    have left : ∀ other ∈ waiting.erase id, other ∈ graph.liveIds := fun other inside =>
      live other (List.mem_of_mem_erase inside)
    cases rest : graph.arrange (waiting.erase id) with
    | error other =>
      rw [rest] at failed
      cases failed
      exact inductionHypothesis left rest
    | ok placed =>
      rw [rest] at failed
      cases failed
  | case2 found => cases failed
  | case3 stuck rest found =>
    cases failed
    refine ⟨stuck, rest, rfl, fun id inside => ?_⟩
    exact exists_reads_of_not_ready (live id inside) (List.find?_eq_none.mp found id inside)

/-- Of finitely many operations each of which reads another one of them, one depends on itself. -/
theorem exists_circular_of_stuck {ids : List Nat} (nonempty : ids ≠ [])
    (stuck : ∀ id ∈ ids, ∃ other ∈ ids, graph.Reads id (.result other)) :
    ∃ id ∈ ids, graph.DependsOn (.result id) (.result id) := by
  by_contra straight
  push Not at straight
  let below (first second : {id // id ∈ ids}) : Prop :=
    graph.DependsOn (.result second.1) (.result first.1)
  have : IsTrans {id // id ∈ ids} below := ⟨fun _ _ _ left right => right.trans left⟩
  have : Std.Irrefl below := ⟨fun id => straight id.1 id.2⟩
  have wellFounded : WellFounded below := Finite.wellFounded_of_trans_of_irrefl below
  obtain ⟨first, member⟩ := List.exists_mem_of_ne_nil ids nonempty
  obtain ⟨least, _, isLeast⟩ := wellFounded.has_min Set.univ ⟨⟨first, member⟩, trivial⟩
  obtain ⟨other, inside, reads⟩ := stuck least.1 least.2
  exact isLeast ⟨other, inside⟩ trivial (.direct reads)

theorem not_acyclic_of_stuck {ids : List Nat} (nonempty : ids ≠ [])
    (stuck : ∀ id ∈ ids, ∃ other ∈ ids, graph.Reads id (.result other)) : ¬ graph.Acyclic := by
  intro acyclic
  obtain ⟨id, _, circular⟩ := exists_circular_of_stuck nonempty stuck
  exact acyclic id circular

/-! ### Orders -/

theorem arrangement_of_order {ids : List Nat} (ordered : graph.order = .ok ids) :
    graph.Arrangement ids := by
  obtain ⟨perm, behind, apart⟩ := arrange_ok ordered
  exact ⟨perm, behind, apart⟩

theorem Arrangement.nodup {ids : List Nat} (arrangement : graph.Arrangement ids) : ids.Nodup :=
  arrangement.perm.nodup_iff.mpr graph.nodup_liveIds

theorem Arrangement.mem_iff {ids : List Nat} (arrangement : graph.Arrangement ids) (id : Nat) :
    id ∈ ids ↔ ∃ operation, graph.operation? id = some operation :=
  arrangement.perm.mem_iff.trans (graph.mem_liveIds_iff id)

/-- The place of a value in an arrangement. Inputs stand in front of it. -/
def placeIn (ids : List Nat) : Value → Nat
  | .input _ => 0
  | .result id => if id ∈ ids then ids.idxOf id + 1 else 0

theorem Arrangement.ranked {ids : List Nat} (arrangement : graph.Arrangement ids) :
    graph.Ranked (placeIn ids) where
  reads id value reads := by
    have member := arrangement.perm.mem_iff.mpr reads.mem_liveIds
    simp only [placeIn, if_pos member]
    cases value with
    | input index => exact Nat.succ_pos _
    | result other =>
      simp only
      by_cases placed : other ∈ ids
      · rw [if_pos placed]
        have apart := arrangement.apart id member
        refine Nat.succ_lt_succ (Nat.lt_of_not_le fun before => ?_)
        have differ : ids.idxOf id ≠ ids.idxOf other := by
          intro same
          rw [List.idxOf_inj member] at same
          exact apart (same ▸ reads)
        have strictly := Nat.lt_of_le_of_ne before differ
        refine List.pairwise_iff_getElem.mp arrangement.behind _ _
          (List.idxOf_lt_length_of_mem member) (List.idxOf_lt_length_of_mem placed) strictly ?_
        rw [List.getElem_idxOf, List.getElem_idxOf]
        exact reads
      · rw [if_neg placed]
        exact Nat.succ_pos _
  fresh id unused := by
    have absent : id ∉ ids := by
      intro member
      obtain ⟨operation, found⟩ := (arrangement.mem_iff id).mp member
      exact absurd (lt_size_of_operation? found) (Nat.not_lt.mpr unused)
    simp only [placeIn, if_neg absent]

/-- The operations of a graph without circles can be put in order. -/
theorem Acyclic.exists_order (acyclic : graph.Acyclic) :
    ∃ ids, graph.order = .ok ids ∧ graph.Arrangement ids := by
  cases ordered : graph.order with
  | ok ids => exact ⟨ids, rfl, arrangement_of_order ordered⟩
  | error reason =>
    obtain ⟨stuck, rest, _, each⟩ := arrange_error (fun _ live => live) ordered
    exact absurd acyclic (not_acyclic_of_stuck (List.cons_ne_nil stuck rest) each)

/-- Those of a graph with circles cannot, and this is the error that says so. -/
theorem order_of_not_acyclic (circular : ¬ graph.Acyclic) :
    ∃ id, graph.order = .error (.cyclic id) := by
  cases ordered : graph.order with
  | ok ids => exact absurd (arrangement_of_order ordered).ranked.acyclic circular
  | error reason =>
    obtain ⟨stuck, _, rfl, _⟩ := arrange_error (fun _ live => live) ordered
    exact ⟨stuck, rfl⟩

theorem acyclic_iff_exists_ranked : graph.Acyclic ↔ ∃ rank, graph.Ranked rank := by
  constructor
  · intro acyclic
    obtain ⟨ids, _, arrangement⟩ := acyclic.exists_order
    exact ⟨placeIn ids, arrangement.ranked⟩
  · rintro ⟨rank, ranked⟩
    exact ranked.acyclic

/-! ### Operations in the order of their numbers -/

/-- The rank of an operation by its number. -/
def numberRank (graph : Graph) : Value → Nat
  | .input _ => 0
  | .result id => if id < graph.nodes.size then id + 1 else 0

/-- A graph whose operations read only results of lower numbers has no circles. -/
theorem acyclic_of_ascending
    (ascending : ∀ id ∈ graph.liveIds, ∀ producer ∈ graph.producers id, producer < id) :
    graph.Acyclic := by
  have ranked : graph.Ranked graph.numberRank := by
    refine ⟨fun id value reads => ?_, fun id unused => if_neg (Nat.not_lt.mpr unused)⟩
    have live := reads.mem_liveIds
    obtain ⟨_, found⟩ := (graph.mem_liveIds_iff id).mp live
    have inside := lt_size_of_operation? found
    cases value with
    | input index => simp [numberRank, inside]
    | result other =>
      have lower := ascending id live other ((mem_producers_iff_reads live other).mpr reads)
      have there : other < graph.nodes.size := lower.trans inside
      simpa [numberRank, inside, there] using lower
  exact ranked.acyclic

end BitGraph.Graph
