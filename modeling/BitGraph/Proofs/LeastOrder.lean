/-
This file proves that operations are put in the least order they can be in. Each
time the least operation that can come next is placed, so no other arrangement
has a smaller number where the two first differ. If the numbers themselves are an
arrangement, the operations therefore stay where they are. This is so in every
graph that was put together by declaring, building and storing alone, since what
is stored reads only what is there already.
-/

import BitGraph.Proofs.Edit.Cases
import BitGraph.Proofs.Graph.Countdown
import BitGraph.Proofs.History

namespace BitGraph.Graph

variable {graph next : Graph} {waiting ids other : List Nat} {id : Nat}

/-! ### What an arrangement is -/

/-- What stands in front of an operation includes all that it reads. -/
theorem Arrangement.mem_before (arrangement : graph.Arrangement ids) (wellFormed : graph.WellFormed)
    {before after : List Nat} (split : ids = before ++ id :: after) {source : Nat}
    (reads : graph.Reads id (.result source)) : source ∈ before := by
  subst split
  have member : source ∈ before ++ id :: after :=
    arrangement.perm.mem_iff.mpr (wellFormed.mem_liveIds_of_reads reads)
  rcases List.mem_append.mp member with inside | rest
  · exact inside
  · rcases List.mem_cons.mp rest with rfl | later
    · exact absurd reads (arrangement.apart source member)
    · have behind := (List.pairwise_append.mp arrangement.behind).2.1
      exact absurd reads ((List.pairwise_cons.mp behind).1 source later)

theorem WellFormed.arrangement_iff (wellFormed : graph.WellFormed) (ids : List Nat) :
    graph.Arrangement ids ↔
      ids.Nodup ∧ (∀ id, id ∈ ids ↔ graph.isLive id = true) ∧
        ∀ before id after, ids = before ++ id :: after →
          ∀ source, graph.Reads id (.result source) → source ∈ before := by
  constructor
  · intro arrangement
    refine ⟨arrangement.nodup, fun id => ?_, fun before id after split source reads => ?_⟩
    · rw [arrangement.mem_iff, isLive_iff]
    · exact arrangement.mem_before wellFormed split reads
  · rintro ⟨nodup, lists, earlier⟩
    refine ⟨(List.perm_ext_iff_of_nodup nodup graph.nodup_liveIds).mpr fun id => ?_, ?_, ?_⟩
    · rw [lists, mem_liveIds_iff_isLive]
    · refine List.pairwise_iff_getElem.mpr fun first second inside there below reads => ?_
      have split : ids = ids.take first ++ ids[first] :: ids.drop (first + 1) := by
        rw [← List.drop_eq_getElem_cons inside, List.take_append_drop]
      obtain ⟨place, bound, same⟩ := List.mem_take_iff_getElem.mp
        (earlier _ _ _ split ids[second] reads)
      have again := (nodup.getElem_inj_iff).mp same
      omega
    · intro id member reads
      obtain ⟨before, after, split⟩ := List.append_of_mem member
      have inside := earlier before id after split id reads
      rw [split] at nodup
      exact (List.nodup_append.mp nodup).2.2 id inside id List.mem_cons_self rfl

/-! ### The least arrangement -/

section Arranging

variable (sublist : waiting.Sublist graph.liveIds) (perm : other.Perm waiting)
  (behind : other.Pairwise fun earlier later => ¬ graph.Reads earlier (.result later))
  (apart : ∀ id ∈ other, ¬ graph.Reads id (.result id))
include sublist perm behind apart

/-- The first operation of an arrangement of those that wait reads none of them. -/
theorem ready_head {first : Nat} {rest : List Nat} (split : other = first :: rest) :
    graph.ready waiting first = true := by
  subst split
  have member : first ∈ waiting := perm.mem_iff.mp List.mem_cons_self
  refine (ready_iff (sublist.mem member)).mpr fun source waits => ?_
  rcases List.mem_cons.mp (perm.mem_iff.mpr waits) with rfl | later
  · exact apart source List.mem_cons_self
  · exact (List.pairwise_cons.mp behind).1 source later

/-- Where the order in which operations are placed first differs from another one that is possible,
it has the smaller number. -/
theorem arrange_le (arranged : graph.arrange waiting = .ok ids) : ids ≤ other := by
  fun_induction Graph.arrange graph waiting generalizing ids other with
  | case1 waiting id found _ inductionHypothesis =>
    cases rest : graph.arrange (waiting.erase id) with
    | error reason =>
      rw [rest] at arranged
      cases arranged
    | ok placed =>
      rw [rest] at arranged
      cases arranged
      cases other with
      | nil =>
        cases perm.nil_eq
        cases found
      | cons first later =>
        have ready := ready_head sublist perm behind apart rfl
        have least := ((find?_eq_some_iff_least (graph.ascending_liveIds.sublist sublist) id).mp
          found).2 first (perm.mem_iff.mp List.mem_cons_self) ready
        rcases Nat.lt_or_eq_of_le least with below | rfl
        · exact le_of_lt (List.Lex.rel below)
        · have left : later.Perm (waiting.erase id) := by
            have erased := perm.erase id
            rwa [List.erase_cons_head] at erased
          exact List.cons_le_cons id (inductionHypothesis (List.erase_sublist.trans sublist) left
            (List.pairwise_cons.mp behind).2 (fun source member =>
              apart source (List.mem_cons_of_mem _ member)) rest)
  | case2 found =>
    cases arranged
    exact le_of_eq perm.eq_nil.symm
  | case3 stuck rest found => cases arranged

end Arranging

/-- Operations that are arranged by their numbers are placed in that order. -/
theorem arrange_self (sublist : waiting.Sublist graph.liveIds)
    (behind : waiting.Pairwise fun earlier later => ¬ graph.Reads earlier (.result later))
    (apart : ∀ id ∈ waiting, ¬ graph.Reads id (.result id)) :
    graph.arrange waiting = .ok waiting := by
  induction waiting with
  | nil =>
    rw [Graph.arrange]
    rfl
  | cons first rest inductionHypothesis =>
    have ready := ready_head sublist (.refl _) behind apart rfl
    have found : (first :: rest).find? (graph.ready (first :: rest)) = some first :=
      List.find?_cons_of_pos ready
    have shorter := (List.sublist_cons_self first rest).trans sublist
    have left := inductionHypothesis shorter (List.pairwise_cons.mp behind).2 fun id member =>
      apart id (List.mem_cons_of_mem _ member)
    rw [Graph.arrange]
    split
    · rename_i id here
      cases found.symm.trans here
      simp only [List.erase_cons_head, left]
      rfl
    · rename_i here
      cases found.symm.trans here

/-! ### Graphs that were put together -/

/-- Operations read only results of lower numbers. -/
def Ascending (graph : Graph) : Prop :=
  ∀ id source, graph.Reads id (.result source) → source < id

theorem Ascending.store (ascending : graph.Ascending) {operation : Operation}
    (verified : operation.verify graph.scope graph.strictness = .ok ()) :
    (graph.store operation).Ascending := by
  rintro id source ⟨stored, found, member⟩
  rw [operation?_store] at found
  split at found
  · rename_i new
    cases found
    obtain ⟨type, typed⟩ := Operation.exists_type_of_verify verified member
    obtain ⟨producer, there, _⟩ := Option.map_eq_some_iff.mp typed
    exact new ▸ lt_size_of_operation? there
  · exact ascending id source ⟨stored, found, member⟩

theorem Growth.ascending (growth : graph.Growth next) (ascending : graph.Ascending) :
    next.Ascending := by
  induction growth with
  | refl => exact ascending
  | tail _ adds inductionHypothesis =>
    obtain ⟨operation, verified, rfl⟩ := adds
    exact inductionHypothesis.store verified

/-- Declaring reads nothing, and what is built or stored reads only what is there. -/
theorem Assembled.ascending (assembled : graph.Assembled) : graph.Ascending := by
  induction assembled with
  | empty strictness =>
    rintro id source ⟨operation, found, _⟩
    simp [Graph.operation?] at found
  | addInput _ name type inductionHypothesis => exact inductionHypothesis
  | @addOutput graph _ name value inductionHypothesis =>
    rcases graph.addOutput_cases name value with same | ⟨_, same⟩
    · rw [same]
      exact inductionHypothesis
    · rw [same]
      rintro id source ⟨operation, found, member⟩
      have before := (operation?_withOutput graph name value id).symm.trans found
      exact inductionHypothesis id source ⟨operation, before, member⟩
  | @insert graph _ operation inductionHypothesis =>
    exact (growth_insert graph operation).ascending inductionHypothesis
  | @build graph _ blueprint inductionHypothesis =>
    exact (growth_build graph blueprint).ascending inductionHypothesis
  | @materialize graph _ replacement inductionHypothesis =>
    exact (growth_materialize graph replacement).ascending inductionHypothesis

theorem Ascending.arrangement (ascending : graph.Ascending) :
    graph.Arrangement graph.liveIds where
  perm := .refl _
  behind := graph.ascending_liveIds.imp fun below reads =>
    Nat.lt_asymm below (ascending _ _ reads)
  apart id _ reads := Nat.lt_irrefl id (ascending id id reads)

/-! ### Graphs that can arise -/

/-- A conjunction that reads a constant which was built after it. -/
def readsLater : Graph :=
  let inputs := (addInput {} "a" byte).2
  let earlier := (inputs.build (.constant ⟨byte.width, byte.positive, 1⟩)).state
  let conjunction := (earlier.build (.variadic .and [.input 0, .result 0])).state
  let later := (conjunction.build (.constant ⟨byte.width, byte.positive, 2⟩)).state
  (later.replaceUses (.result 0) (.result 2)).state

theorem reachable_readsLater : readsLater.Reachable :=
  ⟨{}, .step (.step (.step (.step (.step .start (.addInput _ _)) (.build _)) (.build _)) (.build _))
    (.replaceUses _ _)⟩

theorem assembled_maskedQuotient : maskedQuotient.Assembled :=
  .addOutput (.build (.build (.build (.addInput (.empty {}) _ _) _) _) _) _ _

/-- The operations of a graph that can arise have an order exactly if none depends on itself. The
order is then the least of all lists in which each live operation stands once, behind all that it
reads. So it is that of the numbers whenever these are such a list, which they are as long as
nothing was done but declaring, building and storing. Counting down how many operations each one
waits for never breaks off, and finds the same order or the same error. -/
theorem order_least (reachable : graph.Reachable) :
    ((∃ ids, graph.order = .ok ids) ↔ graph.Acyclic) ∧
    (∀ ids, graph.order = .ok ids ↔
      graph.Arrangement ids ∧ ∀ other, graph.Arrangement other → ids ≤ other) ∧
    (∀ ids, graph.Arrangement ids ↔
      ids.Nodup ∧ (∀ id, id ∈ ids ↔ graph.isLive id = true) ∧
        ∀ before id after, ids = before ++ id :: after →
          ∀ source, graph.Reads id (.result source) → source ∈ before) ∧
    (graph.Arrangement graph.liveIds → graph.order = .ok graph.liveIds) ∧
    (graph.Assembled → graph.order = .ok graph.liveIds) ∧
    graph.countedOrder = some graph.order := by
  have wellFormed := reachable.wellFormed
  have least : ∀ ids, graph.order = .ok ids → ∀ other, graph.Arrangement other → ids ≤ other :=
    fun ids ordered other arrangement =>
      arrange_le (.refl _) arrangement.perm arrangement.behind arrangement.apart ordered
  have kept : graph.Arrangement graph.liveIds → graph.order = .ok graph.liveIds :=
    fun arrangement => arrange_self (.refl _) arrangement.behind arrangement.apart
  refine ⟨⟨?_, ?_⟩, fun ids => ⟨?_, ?_⟩, wellFormed.arrangement_iff, kept, ?_,
    wellFormed.countedOrder⟩
  · rintro ⟨ids, ordered⟩
    exact (arrangement_of_order ordered).ranked.acyclic
  · intro acyclic
    obtain ⟨ids, ordered, _⟩ := acyclic.exists_order
    exact ⟨ids, ordered⟩
  · exact fun ordered => ⟨arrangement_of_order ordered, least ids ordered⟩
  · rintro ⟨arrangement, isLeast⟩
    obtain ⟨found, ordered, arranged⟩ := arrangement.ranked.acyclic.exists_order
    have same : ids = found :=
      le_antisymm (isLeast found arranged) (least found ordered ids arrangement)
    exact same ▸ ordered
  · exact fun assembled => kept assembled.ascending.arrangement

/-- The constant that was built last is placed before the conjunction that reads it, and no other
order is less. -/
theorem order_least_readsLater :
    readsLater.Reachable ∧ readsLater.order = .ok [0, 2, 1] ∧
      (∀ other, readsLater.Arrangement other → [0, 2, 1] ≤ other) ∧
      maskedQuotient.Reachable ∧ maskedQuotient.Assembled ∧
      maskedQuotient.order = .ok maskedQuotient.liveIds := by
  have ordered : readsLater.order = .ok [0, 2, 1] := by cbv
  obtain ⟨_, least, _⟩ := order_least reachable_readsLater
  obtain ⟨_, _, _, _, assembled, _⟩ := order_least reachable_maskedQuotient
  exact ⟨reachable_readsLater, ordered, ((least _).mp ordered).2, reachable_maskedQuotient,
    assembled_maskedQuotient, assembled assembled_maskedQuotient⟩

end BitGraph.Graph
