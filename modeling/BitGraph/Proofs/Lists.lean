/-
This file collects what the proofs need of lists and of computations that can fail in
general: when such computations succeed, relations between lists entry by entry, maps
that can fail, and what is found first.
-/

import Mathlib

namespace BitGraph

section Success

variable {First Second Reason Other : Type} {first : Except Reason First}

/-- A computation that goes on from another one succeeds exactly if both do. -/
theorem bind_eq_ok_iff {next : First → Except Reason Second} {result : Second} :
    first >>= next = .ok result ↔ ∃ found, first = .ok found ∧ next found = .ok result := by
  cases first with
  | error reason => exact iff_of_false (by rintro ⟨⟩) (by rintro ⟨_, ⟨⟩, _⟩)
  | ok found =>
    refine ⟨fun same => ⟨found, rfl, same⟩, ?_⟩
    rintro ⟨_, ⟨⟩, same⟩
    exact same

theorem map_eq_ok_iff {next : First → Second} {result : Second} :
    first.map next = .ok result ↔ ∃ found, first = .ok found ∧ next found = result := by
  cases first with
  | error reason => exact iff_of_false (by rintro ⟨⟩) (by rintro ⟨_, ⟨⟩, _⟩)
  | ok found =>
    refine ⟨fun same => ⟨found, rfl, Except.ok.inj same⟩, ?_⟩
    rintro ⟨_, ⟨⟩, same⟩
    exact congrArg Except.ok same

theorem mapError_eq_ok_iff {reword : Reason → Other} {result : First} :
    first.mapError reword = .ok result ↔ first = .ok result := by
  cases first with
  | error reason => exact iff_of_false (by rintro ⟨⟩) (by rintro ⟨⟩)
  | ok found => exact Iff.of_eq ((Except.ok.injEq _ _).trans (Except.ok.injEq _ _).symm)

theorem mapError_eq_error_iff {reword : Reason → Other} {reason : Other} :
    first.mapError reword = .error reason ↔
      ∃ cause, first = .error cause ∧ reword cause = reason := by
  cases first with
  | error cause =>
    refine ⟨fun same => ⟨cause, rfl, Except.error.inj same⟩, ?_⟩
    rintro ⟨_, ⟨⟩, same⟩
    exact congrArg Except.error same
  | ok found => exact iff_of_false (by rintro ⟨⟩) (by rintro ⟨_, ⟨⟩, _⟩)

end Success

/-- In lists related entry by entry, each entry of the first is related to one of the second. -/
theorem exists_of_forall₂ {First Second : Type} {related : First → Second → Prop}
    {firsts : List First} {seconds : List Second} (each : List.Forall₂ related firsts seconds)
    {first : First} (member : first ∈ firsts) : ∃ second ∈ seconds, related first second := by
  induction each with
  | nil => cases member
  | cons head _ inductionHypothesis =>
    rcases List.mem_cons.mp member with rfl | inRest
    · exact ⟨_, List.mem_cons_self, head⟩
    · obtain ⟨second, inSeconds, holds⟩ := inductionHypothesis inRest
      exact ⟨second, List.mem_cons_of_mem _ inSeconds, holds⟩

/-- Two lists that are each related to a third one, entry by entry, are related to each other. -/
theorem forall₂_of_common {First Second Third : Type} {left : First → Second → Prop}
    {right : First → Third → Prop} {related : Second → Third → Prop}
    (join : ∀ first second third, left first second → right first third → related second third)
    {firsts : List First} {seconds : List Second} {thirds : List Third}
    (lefts : List.Forall₂ left firsts seconds) (rights : List.Forall₂ right firsts thirds) :
    List.Forall₂ related seconds thirds := by
  induction lefts generalizing thirds with
  | nil =>
    cases rights
    exact .nil
  | cons head _ inductionHypothesis =>
    cases rights with
    | cons first rest => exact .cons (join _ _ _ head first) (inductionHypothesis rest)

theorem exists_forall₂_of_forall {First Second : Type} {related : First → Second → Prop}
    {firsts : List First} (each : ∀ first ∈ firsts, ∃ second, related first second) :
    ∃ seconds, List.Forall₂ related firsts seconds := by
  induction firsts with
  | nil => exact ⟨[], .nil⟩
  | cons first rest inductionHypothesis =>
    obtain ⟨⟨second, here⟩, others⟩ := List.forall_mem_cons.mp each
    obtain ⟨seconds, there⟩ := inductionHypothesis others
    exact ⟨second :: seconds, .cons here there⟩

theorem exists_of_forall₂_append {First Second : Type} {related : First → Second → Prop}
    {firsts others : List First} {seconds : List Second}
    (each : List.Forall₂ related (firsts ++ others) seconds) :
    ∃ front back, List.Forall₂ related firsts front ∧ List.Forall₂ related others back ∧
      seconds = front ++ back :=
  ⟨_, _, (List.forall₂_take_append _ _ _ each.flip).flip,
    (List.forall₂_drop_append _ _ _ each.flip).flip, (List.take_append_drop _ _).symm⟩

theorem exists_of_forall₂_one {First Second : Type} {related : First → Second → Prop}
    {firsts : List First} {seconds : List Second} (each : List.Forall₂ related firsts seconds)
    (one : seconds.length = 1) :
    ∃ first second, firsts = [first] ∧ seconds = [second] ∧ related first second := by
  obtain ⟨second, rfl⟩ := List.length_eq_one_iff.mp one
  obtain ⟨first, rest, holds, noMore, rfl⟩ := List.forall₂_cons_right_iff.mp each
  obtain rfl := List.forall₂_nil_right_iff.mp noMore
  exact ⟨first, second, rfl, rfl, holds⟩

theorem exists_of_forall₂_two {First Second : Type} {related : First → Second → Prop}
    {firsts : List First} {seconds : List Second} (each : List.Forall₂ related firsts seconds)
    (two : seconds.length = 2) :
    ∃ first first' second second', firsts = [first, first'] ∧ seconds = [second, second'] ∧
      related first second ∧ related first' second' := by
  obtain ⟨second, second', rfl⟩ := List.length_eq_two.mp two
  obtain ⟨first, rest, holds, others, rfl⟩ := List.forall₂_cons_right_iff.mp each
  obtain ⟨first', _, rfl, ⟨⟩, holds'⟩ := exists_of_forall₂_one others rfl
  exact ⟨first, first', second, second', rfl, rfl, holds, holds'⟩

/-- A map that can fail succeeds exactly if it does at every entry. -/
theorem mapM_eq_ok_iff {Item Result Reason : Type} (map : Item → Except Reason Result)
    (items : List Item) (results : List Result) :
    items.mapM map = .ok results ↔
      List.Forall₂ (fun item result => map item = .ok result) items results := by
  induction items generalizing results with
  | nil =>
    rw [List.mapM_nil, List.forall₂_nil_left_iff]
    exact Except.ok.injEq [] results ▸ eq_comm
  | cons item rest inductionHypothesis =>
    rw [List.mapM_cons, List.forall₂_cons_left_iff]
    simp only [← inductionHypothesis]
    cases map item with
    | error reason => simp [bind, Except.bind]
    | ok result => cases rest.mapM map <;> simp [bind, Except.bind, pure, Except.pure, eq_comm]

/-- A map that fails does so at some entry. -/
theorem exists_of_mapM_eq_error {Item Result Reason : Type} {map : Item → Except Reason Result}
    {items : List Item} {reason : Reason} (failed : items.mapM map = .error reason) :
    ∃ item ∈ items, map item = .error reason := by
  induction items with
  | nil => cases failed
  | cons item rest inductionHypothesis =>
    rw [List.mapM_cons] at failed
    cases here : map item with
    | error other =>
      rw [here] at failed
      cases failed
      exact ⟨item, List.mem_cons_self, here⟩
    | ok result =>
      cases behind : rest.mapM map with
      | error other =>
        rw [here, behind] at failed
        cases failed
        obtain ⟨later, member, there⟩ := inductionHypothesis behind
        exact ⟨later, List.mem_cons_of_mem _ member, there⟩
      | ok results =>
        rw [here, behind] at failed
        cases failed

/-- A map that can miss hits everything exactly if it does at every entry. -/
theorem mapM_eq_some_iff {Item Result : Type} (map : Item → Option Result)
    (items : List Item) (results : List Result) :
    items.mapM map = some results ↔
      List.Forall₂ (fun item result => map item = some result) items results := by
  induction items generalizing results with
  | nil =>
    rw [List.mapM_nil, List.forall₂_nil_left_iff]
    exact Option.some.injEq [] results ▸ eq_comm
  | cons item rest inductionHypothesis =>
    rw [List.mapM_cons, List.forall₂_cons_left_iff]
    simp only [← inductionHypothesis]
    cases map item with
    | none => simp
    | some result => cases rest.mapM map <;> simp [eq_comm]

theorem mapM_congr {Item Result : Type} {map other : Item → Option Result} {items : List Item}
    (same : ∀ item ∈ items, map item = other item) : items.mapM map = items.mapM other := by
  induction items with
  | nil => rfl
  | cons item rest inductionHypothesis =>
    obtain ⟨here, there⟩ := List.forall_mem_cons.mp same
    rw [List.mapM_cons, List.mapM_cons, here, inductionHypothesis there]

/-- The first of ascending numbers with a property is the least one that has it. -/
theorem find?_eq_some_iff_least {holds : Nat → Bool} {ids : List Nat}
    (ascending : ids.Pairwise (· < ·)) (id : Nat) :
    ids.find? holds = some id ↔
      (id ∈ ids ∧ holds id = true) ∧ ∀ other ∈ ids, holds other = true → id ≤ other := by
  induction ids with
  | nil => simp
  | cons first rest inductionHypothesis =>
    obtain ⟨below, ascendingRest⟩ := List.pairwise_cons.mp ascending
    by_cases here : holds first = true
    · rw [List.find?_cons_of_pos here, Option.some_inj]
      constructor
      · rintro rfl
        refine ⟨⟨List.mem_cons_self, here⟩, fun other member _ => ?_⟩
        rcases List.mem_cons.mp member with rfl | behind
        · exact Nat.le_refl _
        · exact Nat.le_of_lt (below other behind)
      · rintro ⟨⟨member, _⟩, least⟩
        rcases List.mem_cons.mp member with rfl | behind
        · rfl
        · exact absurd (below id behind) (Nat.not_lt.mpr (least first List.mem_cons_self here))
    · rw [List.find?_cons_of_neg here, inductionHypothesis ascendingRest]
      grind

theorem mapIdx_item {Item : Type} (items : List Item) :
    items.mapIdx (fun _ item => item) = items :=
  List.mapIdx_eq_iff.mpr fun index => by simp

/-- What stands in a list stands in the same place of every list that begins with it. -/
theorem getElem?_of_begins {Item : Type} {short long : List Item} (begins : short <+: long)
    {index : Nat} {item : Item} (there : short[index]? = some item) : long[index]? = some item := by
  obtain ⟨below, rfl⟩ := List.getElem?_eq_some_iff.mp there
  exact List.prefix_iff_getElem?.mp begins index below

end BitGraph
