/-
This file arranges operations in another way, by counting down. For each operation
it is counted how many others it has to wait for; one that is read several times
counts once. Operations that wait for none are ready. Each time the least of them
is placed, and those that read it wait for one less. This finds the same order as
placing the first operation that reads none of those which wait: the counts are at
all times what they say they are.
-/

import BitGraph.Proofs.Graph.Supplanting

namespace BitGraph.Graph

/-! ### Counting down -/

/-- The operations that a live operation reads, each once. -/
def sources (graph : Graph) (id : Nat) : List Nat :=
  ((graph.operation? id).map fun operation => operation.producers.dedup).getD []

/-- The operations that are placed: those that are live, and those that live ones read. -/
def involved (graph : Graph) : List Nat :=
  (graph.liveIds.flatMap fun id => id :: graph.sources id).dedup

/-- How far counting down has come. -/
structure Countdown where
  /-- How many operations each one still waits for. -/
  pending : List (Nat × Nat)
  /-- Those that can be placed next. -/
  ready : List Nat

/-- The operations of entries that wait for none. -/
def released (pending : List (Nat × Nat)) : List Nat :=
  (pending.filter fun entry => entry.2 = 0).map Prod.fst

/-- Nothing has been placed yet. -/
def countdown (graph : Graph) : Countdown :=
  let pending := graph.involved.map fun id => (id, (graph.sources id).length)
  ⟨pending, released pending⟩

/-- An operation that reads the one that was placed waits for one less. It cannot wait for less
than none. -/
def lowered (graph : Graph) (placed : Nat) (entry : Nat × Nat) : Option (Nat × Nat) :=
  if placed ∈ graph.sources entry.1 then
    match entry.2 with
    | 0 => none
    | count + 1 => some (entry.1, count)
  else
    some entry

/-- The operations that are released have been waiting for something. -/
theorem sum_lowered {graph : Graph} {id : Nat} {before after : List (Nat × Nat)}
    (lowered : before.mapM (graph.lowered id) = some after) :
    (after.map Prod.snd).sum +
      (released (after.filter fun entry => id ∈ graph.sources entry.1)).length ≤
        (before.map Prod.snd).sum := by
  rw [mapM_eq_some_iff] at lowered
  induction lowered with
  | nil => exact Nat.le_refl _
  | @cons entry _ _ _ head _ inductionHypothesis =>
    obtain ⟨reader, count⟩ := entry
    unfold Graph.lowered at head
    split at head
    · rename_i reads
      cases count with
      | zero => cases head
      | succ count =>
        cases head
        by_cases last : count = 0 <;> simp [released, reads, last] at inductionHypothesis ⊢ <;>
          omega
    · rename_i apart
      cases head
      simp [released, apart] at inductionHypothesis ⊢
      omega

namespace Countdown

/-- Place an operation. -/
def place (state : Countdown) (graph : Graph) (id : Nat) : Option Countdown := do
  let pending ← state.pending.mapM (graph.lowered id)
  let readers := pending.filter fun entry => id ∈ graph.sources entry.1
  return ⟨pending, state.ready.erase id ++ released readers⟩

/-- What is still to be counted down, and the operations that are ready. -/
def size (state : Countdown) : Nat :=
  (state.pending.map Prod.snd).sum + state.ready.length

theorem size_place_lt {state next : Countdown} {graph : Graph} {id : Nat}
    (placed : state.place graph id = some next) (least : state.ready.min? = some id) :
    next.size < state.size := by
  obtain ⟨pending, lowered, made⟩ := Option.bind_eq_some_iff.mp placed
  cases made
  have member := (List.min?_eq_some_iff.mp least).1
  have fewer := sum_lowered lowered
  have shorter := List.length_erase_of_mem member
  have positive := List.length_pos_of_mem member
  simp only [size, List.length_append]
  omega

/-- Place the least operation that is ready until none is. The result is the order in which they
were placed and what is left of the counts. -/
def run (state : Countdown) (graph : Graph) : Option (List Nat × List (Nat × Nat)) :=
  match least : state.ready.min? with
  | none => some ([], state.pending)
  | some id =>
    match placed : state.place graph id with
    | none => none
    | some next =>
      have := size_place_lt placed least
      (next.run graph).map fun (order, left) => (id :: order, left)
termination_by state.size

end Countdown

/-- The operations of entries that wait for some. -/
def blocked (pending : List (Nat × Nat)) : List Nat :=
  (pending.filter fun entry => 0 < entry.2).map Prod.fst

/-- The order in which operations were placed, unless some of them still wait: then the least of
these is reported. -/
def ofCountdown (order : List Nat) (left : List (Nat × Nat)) : Except GraphError (List Nat) :=
  match (blocked left).min? with
  | some stuck => .error (.cyclic stuck)
  | none => .ok order

/-- The live operations, each after those it reads. There is no result if a count would fall below
zero. -/
def countedOrder (graph : Graph) : Option (Except GraphError (List Nat)) :=
  (graph.countdown.run graph).map fun (order, left) => ofCountdown order left

variable {graph : Graph} {waiting : List Nat} {id : Nat}

theorem Countdown.run_of_none {state : Countdown} (least : state.ready.min? = none) :
    state.run graph = some ([], state.pending) := by
  rw [run]
  split
  · rfl
  · rename_i other
    rw [least] at other
    cases other

theorem Countdown.run_of_place {state next : Countdown} (least : state.ready.min? = some id)
    (placed : state.place graph id = some next) :
    state.run graph = (next.run graph).map fun (order, left) => (id :: order, left) := by
  rw [run]
  split
  · rename_i other
    rw [least] at other
    cases other
  · rename_i number other
    cases least.symm.trans other
    split
    · rename_i broken
      rw [placed] at broken
      cases broken
    · rename_i after same
      cases placed.symm.trans same
      rfl

/-! ### What the counts say -/

theorem mem_sources_iff (graph : Graph) (id other : Nat) :
    other ∈ graph.sources id ↔ graph.Reads id (.result other) := by
  unfold sources Graph.Reads
  cases graph.operation? id with
  | none => simp
  | some operation => simp [operation.mem_producers_iff]

theorem nodup_sources (graph : Graph) (id : Nat) : (graph.sources id).Nodup := by
  unfold sources
  cases graph.operation? id with
  | none => exact .nil
  | some operation => exact operation.producers.nodup_dedup

theorem nodup_involved (graph : Graph) : graph.involved.Nodup :=
  List.nodup_dedup _

theorem WellFormed.mem_involved_iff (wellFormed : graph.WellFormed) (id : Nat) :
    id ∈ graph.involved ↔ id ∈ graph.liveIds := by
  simp only [involved, List.mem_dedup, List.mem_flatMap, List.mem_cons]
  constructor
  · rintro ⟨reader, live, rfl | read⟩
    · exact live
    · exact wellFormed.mem_liveIds_of_reads ((graph.mem_sources_iff reader id).mp read)
  · exact fun live => ⟨id, live, .inl rfl⟩

/-- The operations that one has to wait for. -/
def awaited (graph : Graph) (waiting : List Nat) (id : Nat) : List Nat :=
  (graph.sources id).filter fun other => other ∈ waiting

theorem awaited_eq_nil_iff (live : id ∈ graph.liveIds) :
    graph.awaited waiting id = [] ↔ graph.ready waiting id = true := by
  simp only [awaited, List.filter_eq_nil_iff, mem_sources_iff, decide_eq_true_eq, ready_iff live]
  exact ⟨fun apart other waits reads => apart other reads waits,
    fun apart other reads waits => apart other waits reads⟩

/-- When an operation is placed, those that read it wait for one less. -/
theorem length_awaited (nodup : waiting.Nodup) (member : id ∈ waiting) (reader : Nat) :
    (graph.awaited waiting reader).length =
      (graph.awaited (waiting.erase id) reader).length +
        if id ∈ graph.sources reader then 1 else 0 := by
  have left : graph.awaited (waiting.erase id) reader =
      (graph.awaited waiting reader).erase id := by
    rw [awaited, awaited, ((graph.nodup_sources reader).filter _).erase_eq_filter,
      List.filter_filter]
    refine List.filter_congr fun other _ => ?_
    rw [Bool.eq_iff_iff]
    simp [nodup.mem_erase_iff]
  rw [left]
  by_cases reads : id ∈ graph.sources reader
  · have inside : id ∈ graph.awaited waiting reader :=
      List.mem_filter.mpr ⟨reads, decide_eq_true member⟩
    rw [if_pos reads, List.length_erase_of_mem inside,
      Nat.sub_add_cancel (List.length_pos_of_mem inside)]
  · have outside : id ∉ graph.awaited waiting reader := fun inside =>
      reads (List.mem_filter.mp inside).1
    rw [if_neg reads, List.erase_of_not_mem outside, Nat.add_zero]

/-- How many operations each one has to wait for. -/
def counts (graph : Graph) (waiting : List Nat) : List (Nat × Nat) :=
  graph.involved.map fun id => (id, (graph.awaited waiting id).length)

theorem mapM_lowered (nodup : waiting.Nodup) (member : id ∈ waiting) :
    (graph.counts waiting).mapM (graph.lowered id) = some (graph.counts (waiting.erase id)) := by
  rw [mapM_eq_some_iff, counts, counts, List.forall₂_map_left_iff, List.forall₂_map_right_iff,
    List.forall₂_same]
  intro reader _
  rw [length_awaited nodup member reader]
  unfold lowered
  by_cases reads : id ∈ graph.sources reader <;> simp [reads]

theorem WellFormed.mem_counts_iff (wellFormed : graph.WellFormed) :
    (id, 0) ∈ graph.counts waiting ↔ id ∈ graph.liveIds ∧ graph.ready waiting id = true := by
  have listed : (id, 0) ∈ graph.counts waiting ↔
      id ∈ graph.involved ∧ (graph.awaited waiting id).length = 0 := by
    simp [counts]
  rw [listed, wellFormed.mem_involved_iff, List.length_eq_zero_iff]
  exact and_congr_right fun live => awaited_eq_nil_iff live

theorem mem_released_iff (pending : List (Nat × Nat)) (id : Nat) :
    id ∈ released pending ↔ (id, 0) ∈ pending := by
  simp [released]

theorem WellFormed.mem_blocked_iff (wellFormed : graph.WellFormed) :
    id ∈ blocked (graph.counts waiting) ↔
      id ∈ graph.liveIds ∧ ¬ graph.ready waiting id = true := by
  have listed : id ∈ blocked (graph.counts waiting) ↔
      id ∈ graph.involved ∧ graph.awaited waiting id ≠ [] := by
    simp [blocked, counts, List.length_pos_iff]
  rw [listed, wellFormed.mem_involved_iff]
  exact and_congr_right fun live => not_congr (awaited_eq_nil_iff live)

theorem nodup_released {pending : List (Nat × Nat)}
    (sublist : pending.Sublist (graph.counts waiting)) : (released pending).Nodup := by
  have numbers : (graph.counts waiting).map Prod.fst = graph.involved := by
    simp [counts, Function.comp_def]
  have nodup : (pending.map Prod.fst).Nodup :=
    (numbers ▸ graph.nodup_involved).sublist (sublist.map _)
  exact nodup.sublist (List.filter_sublist.map _)

/-! ### Keeping track -/

/-- The counts and the operations that are ready are right, as long as these operations wait. -/
structure Countdown.Tracks (state : Countdown) (graph : Graph) (waiting : List Nat) : Prop where
  pending : state.pending = graph.counts waiting
  nodup_ready : state.ready.Nodup
  mem_ready_iff : ∀ id, id ∈ state.ready ↔ id ∈ waiting ∧ graph.ready waiting id = true
  /-- What was placed was ready, and stays so. -/
  placed : ∀ id ∈ graph.liveIds, id ∉ waiting → graph.ready waiting id = true

namespace Countdown

variable {state : Countdown}

/-- The counts are right at the start. -/
theorem tracks_countdown (wellFormed : graph.WellFormed) :
    graph.countdown.Tracks graph graph.liveIds := by
  have all : ∀ id, graph.awaited graph.liveIds id = graph.sources id := by
    intro id
    refine List.filter_eq_self.mpr fun other read => decide_eq_true ?_
    exact wellFormed.mem_liveIds_of_reads ((graph.mem_sources_iff id other).mp read)
  have pending : graph.countdown.pending = graph.counts graph.liveIds := by
    simp only [countdown, counts, all]
  have ready : graph.countdown.ready = released (graph.counts graph.liveIds) :=
    congrArg released pending
  refine ⟨pending, ready ▸ nodup_released (.refl _), fun id => ?_,
    fun id live absent => absurd live absent⟩
  rw [ready, mem_released_iff, wellFormed.mem_counts_iff]

section Step

variable (wellFormed : graph.WellFormed) (tracks : state.Tracks graph waiting)
  (live : ∀ id ∈ waiting, id ∈ graph.liveIds) (nodup : waiting.Nodup) (member : id ∈ state.ready)
include wellFormed tracks live nodup member

/-- Placing an operation that is ready goes through, and the counts are right afterwards. -/
theorem Tracks.place :
    ∃ next, state.place graph id = some next ∧ next.Tracks graph (waiting.erase id) := by
  obtain ⟨waits, ready⟩ := (tracks.mem_ready_iff id).mp member
  have lowered : state.pending.mapM (graph.lowered id) = some (graph.counts (waiting.erase id)) :=
    tracks.pending ▸ mapM_lowered nodup waits
  have unread := not_reads_of_ready ready waits
  have stays : ∀ other ∈ graph.liveIds, graph.ready waiting other = true →
      graph.ready (waiting.erase id) other = true := fun other there before =>
    (ready_iff there).mpr fun source waits =>
      (ready_iff there).mp before source (List.mem_of_mem_erase waits)
  have mem_freed : ∀ other, other ∈ released ((graph.counts (waiting.erase id)).filter
      fun entry => id ∈ graph.sources entry.1) ↔ (other ∈ graph.liveIds ∧
        graph.ready (waiting.erase id) other = true) ∧ graph.Reads other (.result id) := by
    intro other
    rw [mem_released_iff, List.mem_filter, wellFormed.mem_counts_iff, decide_eq_true_eq,
      mem_sources_iff]
  refine ⟨_, by rw [Countdown.place, lowered]; rfl, rfl, ?_, fun other => ?_,
    fun other there absent => ?_⟩
  · refine List.nodup_append.mpr ⟨tracks.nodup_ready.erase id,
      nodup_released List.filter_sublist, fun other before reader freed same => ?_⟩
    subst same
    have readyBefore := ((tracks.mem_ready_iff other).mp (List.mem_of_mem_erase before)).2
    exact not_reads_of_ready readyBefore waits ((mem_freed other).mp freed).2
  · rw [List.mem_append, mem_freed, tracks.nodup_ready.mem_erase_iff, tracks.mem_ready_iff,
      nodup.mem_erase_iff]
    constructor
    · rintro (⟨apart, waitsToo, readyToo⟩ | ⟨⟨there, readyNow⟩, reads⟩)
      · exact ⟨⟨apart, waitsToo⟩, stays other (live other waitsToo) readyToo⟩
      · refine ⟨⟨?_, ?_⟩, readyNow⟩
        · rintro rfl
          exact unread reads
        · by_contra absent
          exact not_reads_of_ready (tracks.placed other there absent) waits reads
    · rintro ⟨⟨apart, waitsToo⟩, readyNow⟩
      have there := live other waitsToo
      by_cases reads : graph.Reads other (.result id)
      · exact .inr ⟨⟨there, readyNow⟩, reads⟩
      · refine .inl ⟨apart, waitsToo, (ready_iff there).mpr fun source waitsFor => ?_⟩
        by_cases same : source = id
        · exact same ▸ reads
        · exact (ready_iff there).mp readyNow source (nodup.mem_erase_iff.mpr ⟨same, waitsFor⟩)
  · by_cases same : other = id
    · exact stays other there (same ▸ ready)
    · refine stays other there (tracks.placed other there fun waitsToo => absent ?_)
      exact nodup.mem_erase_iff.mpr ⟨same, waitsToo⟩

end Step

theorem Tracks.min?_ready (tracks : state.Tracks graph waiting)
    (ascending : waiting.Pairwise (· < ·)) :
    state.ready.min? = waiting.find? (graph.ready waiting) := by
  refine Option.ext fun id => ?_
  rw [List.min?_eq_some_iff, find?_eq_some_iff_least ascending, tracks.mem_ready_iff]
  refine and_congr_right fun _ => forall_congr' fun other => ?_
  rw [tracks.mem_ready_iff, and_imp]

theorem ofCountdown_cons (id : Nat) (order : List Nat) (left : List (Nat × Nat)) :
    ofCountdown (id :: order) left = (ofCountdown order left).map (id :: ·) := by
  unfold ofCountdown
  cases (blocked left).min? <;> rfl

/-- Once nothing is ready any more, the operations that wait are those with positive counts. -/
theorem Tracks.run_of_not_ready (wellFormed : graph.WellFormed)
    (tracks : state.Tracks graph waiting) (sublist : waiting.Sublist graph.liveIds)
    (found : waiting.find? (graph.ready waiting) = none) :
    (state.run graph).map (fun (order, left) => ofCountdown order left) =
      some (match waiting with
        | [] => .ok []
        | stuck :: _ => .error (.cyclic stuck)) := by
  have ascending := graph.ascending_liveIds.sublist sublist
  have mem_blocked : ∀ id, id ∈ blocked state.pending ↔ id ∈ waiting := by
    intro id
    rw [tracks.pending, wellFormed.mem_blocked_iff]
    constructor
    · rintro ⟨live, blocked⟩
      by_contra absent
      exact blocked (tracks.placed id live absent)
    · exact fun waits => ⟨sublist.mem waits, List.find?_eq_none.mp found id waits⟩
  rw [run_of_none ((tracks.min?_ready ascending).trans found), Option.map_some]
  refine congrArg some (?_ : ofCountdown [] state.pending = _)
  unfold ofCountdown
  cases waiting with
  | nil =>
    rw [List.eq_nil_iff_forall_not_mem.mpr fun id member => nomatch (mem_blocked id).mp member]
    rfl
  | cons stuck rest =>
    have least : (blocked state.pending).min? = some stuck := by
      refine List.min?_eq_some_iff.mpr ⟨(mem_blocked stuck).mpr List.mem_cons_self,
        fun other member => ?_⟩
      rcases List.mem_cons.mp ((mem_blocked other).mp member) with rfl | behind
      · exact Nat.le_refl _
      · exact Nat.le_of_lt ((List.pairwise_cons.mp ascending).1 other behind)
    rw [least]

/-- Counting down from right counts comes to what placing the operations that wait comes to. -/
theorem Tracks.run_eq (wellFormed : graph.WellFormed) (tracks : state.Tracks graph waiting)
    (sublist : waiting.Sublist graph.liveIds) :
    (state.run graph).map (fun (order, left) => ofCountdown order left) =
      some (graph.arrange waiting) := by
  fun_induction Graph.arrange graph waiting generalizing state with
  | case1 waiting id found _ inductionHypothesis =>
    have ascending := graph.ascending_liveIds.sublist sublist
    have least := (tracks.min?_ready ascending).trans found
    obtain ⟨next, placed, tracksNext⟩ := tracks.place wellFormed (fun _ => sublist.mem)
      ascending.nodup (List.min?_eq_some_iff.mp least).1
    have shorter : (waiting.erase id).Sublist graph.liveIds := List.erase_sublist.trans sublist
    rw [run_of_place least placed, ← Option.map_some, ← inductionHypothesis tracksNext shorter,
      Option.map_map, Option.map_map]
    exact congrArg (Option.map · _) (funext fun _ => ofCountdown_cons id _ _)
  | case2 found => exact tracks.run_of_not_ready wellFormed sublist found
  | case3 stuck rest found => exact tracks.run_of_not_ready wellFormed sublist found

end Countdown

/-- Counting down never breaks off, and it finds the order. -/
theorem WellFormed.countedOrder (wellFormed : graph.WellFormed) :
    graph.countedOrder = some graph.order :=
  (Countdown.tracks_countdown wellFormed).run_eq wellFormed (.refl _)

end BitGraph.Graph
