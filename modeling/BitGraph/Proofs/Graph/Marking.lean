/-
This file defines marking, the loop that finds the operations which the outputs
need, and proves that it comes to an end and has then marked exactly these. The
loop keeps a stack of operations to look at. One that was marked before is dropped
from it, so the loop does not go around in circles: each step takes an entry off
the stack, and no operation is followed to what it reads more than once.
-/

import BitGraph.Proofs.Graph.Supplanting

namespace BitGraph.Graph

variable {graph : Graph}

/-! ### What is closed under reading -/

/-- What holds of an operation holds of those that it depends on, if it holds of those that it
reads. -/
theorem DependsOn.carries {holds : Nat → Prop}
    (each : ∀ reader id, graph.Reads reader (.result id) → holds reader → holds id)
    {reader id : Nat} (depends : graph.DependsOn (.result reader) (.result id))
    (here : holds reader) : holds id := by
  generalize first : Value.result reader = start at depends
  generalize last : Value.result id = source at depends
  induction depends generalizing reader with
  | direct reads =>
    cases first
    exact each _ id (last ▸ reads) here
  | through reads rest inductionHypothesis =>
    cases first
    obtain ⟨middle, _, rfl, _⟩ := rest.exists_reads
    exact inductionHypothesis (each _ middle reads here) rfl last

/-- What holds of the operations that drive outputs, and of what they read, holds of all that are
needed. -/
theorem Needs.holds {holds : Nat → Prop}
    (driven : ∀ id, .result id ∈ graph.outputValues → holds id)
    (each : ∀ reader id, graph.Reads reader (.result id) → holds reader → holds id) {id : Nat}
    (needs : graph.Needs id) : holds id := by
  obtain ⟨value, drives, rfl | depends⟩ := needs
  · exact driven id drives
  · obtain ⟨start, _, rfl, _⟩ := depends.exists_reads
    exact depends.carries each (driven start drives)

theorem Needs.of_reads {reader id : Nat} (reads : graph.Reads reader (.result id))
    (needs : graph.Needs reader) : graph.Needs id := by
  obtain ⟨value, drives, rfl | depends⟩ := needs
  · exact ⟨_, drives, .inr (.direct reads)⟩
  · exact ⟨value, drives, .inr (depends.trans (.direct reads))⟩

/-- Only operations that exist are needed. -/
theorem WellFormed.isLive_of_needs (wellFormed : graph.WellFormed) {id : Nat}
    (needs : graph.Needs id) : graph.isLive id = true :=
  needs.holds (fun _ driven => wellFormed.holds_of_output driven)
    fun _ _ reads _ => wellFormed.holds_of_reads reads

/-! ### Marking -/

/-- The state of the loop. -/
structure Marking where
  /-- The operations that were marked. -/
  marked : List Nat
  /-- The operations to look at, the next one first. -/
  agenda : List Nat

/-- The loop starts with the operations that drive outputs, and looks at the last one first. -/
def markStart (graph : Graph) : Marking :=
  ⟨[], (graph.outputValues.filterMap Value.producer?).reverse⟩

/-- Look at an operation: mark it, and look at those that it reads, the last one first, unless it
was marked before. -/
def markNext (graph : Graph) (marking : Marking) : Marking :=
  match marking.agenda with
  | [] => marking
  | id :: rest =>
    if id ∈ marking.marked then ⟨marking.marked, rest⟩
    else ⟨id :: marking.marked, (graph.producers id).reverse ++ rest⟩

/-- What is known while operations are marked: none is marked twice, only those that are needed are
looked at, and those that drive outputs or are read by a marked one are marked or looked at. -/
structure Marks (graph : Graph) (marking : Marking) : Prop where
  nodup : marking.marked.Nodup
  marked : ∀ id ∈ marking.marked, graph.Needs id
  agenda : ∀ id ∈ marking.agenda, graph.Needs id
  driven : ∀ id, .result id ∈ graph.outputValues → id ∈ marking.marked ∨ id ∈ marking.agenda
  closed : ∀ reader ∈ marking.marked, ∀ id, graph.Reads reader (.result id) →
    id ∈ marking.marked ∨ id ∈ marking.agenda

theorem mem_agenda_markStart (id : Nat) :
    id ∈ graph.markStart.agenda ↔ .result id ∈ graph.outputValues := by
  rw [markStart, List.mem_reverse, List.mem_filterMap]
  constructor
  · rintro ⟨value, driven, produced⟩
    cases value with
    | input index => cases produced
    | result number =>
      cases produced
      exact driven
  · exact fun driven => ⟨_, driven, rfl⟩

theorem marks_start (graph : Graph) : graph.Marks graph.markStart where
  nodup := .nil
  marked := nofun
  agenda id member := ⟨_, (mem_agenda_markStart id).mp member, .inl rfl⟩
  driven id driven := .inr ((mem_agenda_markStart id).mpr driven)
  closed := nofun

section Step

variable {marked rest : List Nat} {id : Nat}

theorem markNext_of_mem (member : id ∈ marked) :
    graph.markNext ⟨marked, id :: rest⟩ = ⟨marked, rest⟩ :=
  if_pos member

theorem markNext_of_not_mem (absent : id ∉ marked) :
    graph.markNext ⟨marked, id :: rest⟩ =
      ⟨id :: marked, (graph.producers id).reverse ++ rest⟩ :=
  if_neg absent

variable (wellFormed : graph.WellFormed) (marks : graph.Marks ⟨marked, id :: rest⟩)

omit wellFormed in
include marks in
/-- An operation that was marked before is dropped. -/
theorem Marks.pass_over (member : id ∈ marked) : graph.Marks ⟨marked, rest⟩ where
  nodup := marks.nodup
  marked := marks.marked
  agenda other inside := marks.agenda other (List.mem_cons_of_mem _ inside)
  driven other driven := by
    rcases marks.driven other driven with before | next
    · exact .inl before
    · rcases List.mem_cons.mp next with rfl | later
      · exact .inl member
      · exact .inr later
  closed reader before other reads := by
    rcases marks.closed reader before other reads with before | next
    · exact .inl before
    · rcases List.mem_cons.mp next with rfl | later
      · exact .inl member
      · exact .inr later

include wellFormed marks in
/-- An operation is marked, and those that it reads are looked at next. -/
theorem Marks.mark (absent : id ∉ marked) :
    graph.Marks ⟨id :: marked, (graph.producers id).reverse ++ rest⟩ := by
  have needs := marks.agenda id List.mem_cons_self
  have live := (graph.mem_liveIds_iff_isLive id).mpr (wellFormed.isLive_of_needs needs)
  -- Whatever was marked or looked at still is.
  have kept : ∀ other, other ∈ marked ∨ other ∈ id :: rest →
      other ∈ id :: marked ∨ other ∈ (graph.producers id).reverse ++ rest := by
    rintro other (before | next)
    · exact .inl (List.mem_cons_of_mem _ before)
    · rcases List.mem_cons.mp next with rfl | later
      · exact .inl List.mem_cons_self
      · exact .inr (List.mem_append_right _ later)
  refine ⟨List.nodup_cons.mpr ⟨absent, marks.nodup⟩, ?_, fun other inside => ?_,
    fun other driven => kept other (marks.driven other driven), ?_⟩
  · exact List.forall_mem_cons.mpr ⟨needs, marks.marked⟩
  · rcases List.mem_append.mp inside with read | later
    · exact needs.of_reads ((mem_producers_iff_reads live other).mp (List.mem_reverse.mp read))
    · exact marks.agenda other (List.mem_cons_of_mem _ later)
  · refine List.forall_mem_cons.mpr ⟨fun other reads => .inr (List.mem_append_left _ ?_),
      fun reader before other reads => kept other (marks.closed reader before other reads)⟩
    exact List.mem_reverse.mpr ((mem_producers_iff_reads live other).mpr reads)

end Step

/-- When nothing is left to look at, the marked operations are those that are needed. -/
theorem Marks.mem_iff {marked : List Nat} (marks : graph.Marks ⟨marked, []⟩) (id : Nat) :
    id ∈ marked ↔ graph.Needs id := by
  refine ⟨marks.marked id, fun needs => needs.holds (fun other driven => ?_)
    fun reader other reads before => ?_⟩
  · exact (marks.driven other driven).resolve_right List.not_mem_nil
  · exact (marks.closed reader before other reads).resolve_right List.not_mem_nil

/-! ### The end of the loop -/

/-- How many entries are on the stack, or may still be put on it. -/
def Marking.left (graph : Graph) (marking : Marking) : Nat :=
  marking.agenda.length +
    ∑ id ∈ graph.liveIds.toFinset \ marking.marked.toFinset, (graph.producers id).length

/-- At first this is an entry for each output that an operation drives, and one for each operand
that an operation produces. -/
theorem Marking.left_markStart (graph : Graph) : graph.markStart.left graph =
    (graph.outputValues.filterMap Value.producer?).length +
      (graph.liveIds.map fun id => (graph.producers id).length).sum := by
  rw [← List.sum_toFinset _ graph.nodup_liveIds]
  simp only [left, markStart, List.length_reverse, List.toFinset_nil, Finset.sdiff_empty]

theorem Marking.left_pass_over (graph : Graph) (marked rest : List Nat) (id : Nat) :
    (Marking.mk marked rest).left graph + 1 = (Marking.mk marked (id :: rest)).left graph := by
  simp only [left, List.length_cons]
  omega

/-- Marking an operation takes one entry off the stack for good. -/
theorem Marking.left_mark {marked : List Nat} (rest : List Nat) {id : Nat}
    (live : id ∈ graph.liveIds) (absent : id ∉ marked) :
    (Marking.mk (id :: marked) ((graph.producers id).reverse ++ rest)).left graph + 1 =
      (Marking.mk marked (id :: rest)).left graph := by
  have member : id ∈ graph.liveIds.toFinset \ marked.toFinset := by
    rw [Finset.mem_sdiff, List.mem_toFinset, List.mem_toFinset]
    exact ⟨live, absent⟩
  have total := Finset.add_sum_erase _ (fun id => (graph.producers id).length) member
  simp only [left, List.toFinset_cons, Finset.sdiff_insert, List.length_append, List.length_reverse,
    List.length_cons, ← total]
  omega

/-- The loop comes to an end. -/
theorem WellFormed.marking_ends (wellFormed : graph.WellFormed) {marking : Marking}
    (marks : graph.Marks marking) : ∃ steps ≤ marking.left graph, ∃ marked,
      (graph.markNext)^[steps] marking = ⟨marked, []⟩ ∧ graph.Marks ⟨marked, []⟩ := by
  induction left : marking.left graph using Nat.strong_induction_on generalizing marking with
  | _ most inductionHypothesis =>
    obtain ⟨marked, agenda⟩ := marking
    cases agenda with
    | nil => exact ⟨0, Nat.zero_le _, marked, rfl, marks⟩
    | cons id rest =>
      by_cases member : id ∈ marked
      · have lower := Marking.left_pass_over graph marked rest id
        rw [left] at lower
        obtain ⟨steps, few, final, ended, done⟩ :=
          inductionHypothesis _ (by omega) (marks.pass_over member) rfl
        refine ⟨steps + 1, by omega, final, ?_, done⟩
        rw [Function.iterate_succ_apply, markNext_of_mem member, ended]
      · have needs := marks.agenda id List.mem_cons_self
        have live := (graph.mem_liveIds_iff_isLive id).mpr (wellFormed.isLive_of_needs needs)
        have lower := Marking.left_mark rest live member
        rw [left] at lower
        obtain ⟨steps, few, final, ended, done⟩ :=
          inductionHypothesis _ (by omega) (marks.mark wellFormed member) rfl
        refine ⟨steps + 1, by omega, final, ?_, done⟩
        rw [Function.iterate_succ_apply, markNext_of_not_mem member, ended]

end BitGraph.Graph
