/-
This file says exactly which edits close a circle. Moving the uses of one value
to another closes one if the other depended on the first: what read the first
on the way now reads the other. It closes none otherwise, since the ranks of all
that depends on the first can then be raised above the other. Replacing an
operation comes down to this case. Storing operations closes no circle, and
neither does a proposal of folding or of canonical order.
-/

import BitGraph.Proofs.Edit.Cases
import BitGraph.Proofs.Simplify.Meaning

namespace BitGraph.Graph

variable {graph next : Graph} {id : Nat} {source target value : Value}

/-! ### Dependence -/

theorem dependsOn_result_iff :
    graph.DependsOn (.result id) source ↔
      ∃ middle, graph.Reads id middle ∧ (middle = source ∨ graph.DependsOn middle source) := by
  constructor
  · intro depends
    cases depends with
    | direct reads => exact ⟨source, reads, .inl rfl⟩
    | through reads rest => exact ⟨_, reads, .inr rest⟩
  · rintro ⟨middle, reads, rfl | rest⟩
    · exact .direct reads
    · exact .through reads rest

theorem DependsOn.mono (reads : ∀ id value, graph.Reads id value → next.Reads id value)
    {reader : Value} (depends : graph.DependsOn reader source) : next.DependsOn reader source := by
  induction depends with
  | direct read => exact .direct (reads _ _ read)
  | through read _ inductionHypothesis => exact .through (reads _ _ read) inductionHypothesis

/-- What is stored behind a graph does not change what the values of the graph depend on. -/
theorem Extends.dependsOn_iff (extends_ : Extends graph next) (wellFormed : graph.WellFormed)
    {reader : Value} (held : graph.holds reader = true) :
    next.DependsOn reader source ↔ graph.DependsOn reader source := by
  constructor
  · intro depends
    -- Along a chain that starts at a value of the graph, all values are values of the graph.
    have same : ∀ {id : Nat} {value : Value}, graph.holds (.result id) = true →
        next.Reads id value → graph.Reads id value := by
      rintro id value live ⟨operation, found, member⟩
      obtain ⟨before, there⟩ := (graph.isLive_iff id).mp live
      cases (extends_.operation? id before there).symm.trans found
      exact ⟨operation, there, member⟩
    induction depends with
    | direct reads => exact .direct (same held reads)
    | through reads _ inductionHypothesis =>
      have before := same held reads
      exact .through before (inductionHypothesis (wellFormed.holds_of_reads before))
  · refine DependsOn.mono fun id value reads => ?_
    obtain ⟨operation, found, member⟩ := reads
    exact ⟨operation, extends_.operation? id operation found, member⟩

theorem not_acyclic_iff_order : ¬ graph.Acyclic ↔ ∃ id, graph.order = .error (.cyclic id) := by
  constructor
  · exact order_of_not_acyclic
  · rintro ⟨id, failed⟩ acyclic
    obtain ⟨ids, ordered, _⟩ := acyclic.exists_order
    cases failed.symm.trans ordered

/-! ### Letting readers read another value -/

section Moved

variable (moved : ∀ id read, Value.result id ≠ source → graph.Reads id read →
  next.Reads id (Value.substitute source target read))

include moved in
/-- A chain from one value to another is cut short where it first meets the other. If the readers
of the other read a third value instead, it leads to that one. -/
theorem DependsOn.redirected {reader : Value} (depends : graph.DependsOn reader source)
    (other : reader ≠ source) : next.DependsOn reader target := by
  induction depends with
  | direct reads =>
    have here := moved _ _ other reads
    rw [Value.substitute_self] at here
    exact .direct here
  | @through id middle source reads _ inductionHypothesis =>
    have here := moved _ _ other reads
    by_cases met : middle = source
    · rw [met, Value.substitute_self] at here
      exact .direct here
    · rw [Value.substitute_other met] at here
      exact .through here (inductionHypothesis moved met)

include moved in
theorem DependsOn.closes (depends : graph.DependsOn target source) (apart : target ≠ source) :
    ¬ next.Acyclic := by
  intro acyclic
  obtain ⟨id, _, rfl, _⟩ := depends.exists_reads
  exact acyclic id (depends.redirected moved apart)

end Moved

/-- A value that does not depend on another one can be given a rank that is no higher: the ranks
of the other one and of all that depends on it are raised by its own. -/
theorem Ranked.exists_raised {rank : Value → Nat} (ranked : graph.Ranked rank)
    (held : graph.holds source = true) (apart : target ≠ source)
    (independent : ¬ graph.DependsOn target source) :
    ∃ ranking, graph.Ranked ranking ∧ ranking target ≤ ranking source := by
  classical
  let above (value : Value) : Prop := value = source ∨ graph.DependsOn value source
  let ranking (value : Value) : Nat :=
    if above value then rank value + rank target else rank value
  have raised : ∀ {value}, above value → ranking value = rank value + rank target :=
    fun high => if_pos high
  have kept : ∀ {value}, ¬ above value → ranking value = rank value := fun low => if_neg low
  refine ⟨ranking, ⟨fun id value reads => ?_, fun id unused => ?_⟩, ?_⟩
  · have below := ranked.reads id value reads
    by_cases high : above value
    · have reader : above (.result id) := by
        rcases high with rfl | rest
        · exact .inr (.direct reads)
        · exact .inr (.through reads rest)
      rw [raised high, raised reader]
      exact Nat.add_lt_add_right below _
    · have grows : rank (.result id) ≤ ranking (.result id) := by
        by_cases reader : above (.result id)
        · rw [raised reader]
          exact Nat.le_add_right _ _
        · rw [kept reader]
      rw [kept high]
      exact below.trans_le grows
  · have dead : graph.isLive id ≠ true := by
      intro live
      obtain ⟨operation, found⟩ := (graph.isLive_iff id).mp live
      exact absurd (lt_size_of_operation? found) (Nat.not_lt.mpr unused)
    have low : ¬ above (.result id) := by
      rintro (rfl | depends)
      · exact dead held
      · obtain ⟨_, _, same, reads⟩ := depends.exists_reads
        cases same
        exact dead reads.isLive
    rw [kept low]
    exact ranked.fresh id unused
  · have low : ¬ above target := fun high => high.elim apart independent
    rw [kept low, raised (.inl rfl)]
    exact Nat.le_add_left _ _

/-- Moving the uses of a value to another one closes a circle exactly if the other one depended on
it. -/
theorem acyclic_redirect_iff (wellFormed : graph.WellFormed) (acyclic : graph.Acyclic)
    (held : graph.holds source = true) (apart : target ≠ source) :
    (graph.redirect source target).Acyclic ↔ ¬ graph.DependsOn target source := by
  constructor
  · intro after depends
    refine depends.closes (fun id read _ reads => ?_) apart after
    exact (reads_redirect wellFormed source target id _).mpr ⟨read, reads, rfl⟩
  · intro independent
    obtain ⟨rank, ranked⟩ := acyclic_iff_exists_ranked.mp acyclic
    obtain ⟨ranking, level, lower⟩ := ranked.exists_raised held apart independent
    exact (level.redirect wellFormed lower).acyclic

/-- Letting a value supplant an operation closes a circle exactly if the value depended on the
operation. -/
theorem acyclic_supplant_iff (wellFormed : graph.WellFormed) (acyclic : graph.Acyclic)
    {operation : Operation} (found : graph.operation? id = some operation)
    (apart : value ≠ .result id) :
    (graph.supplant id operation value).Acyclic ↔ ¬ graph.DependsOn value (.result id) := by
  constructor
  · intro after depends
    refine depends.closes (fun other read differs reads => ?_) apart after
    obtain ⟨stored, there, member⟩ := reads
    have kept : other ≠ id := fun same => differs (congrArg Value.result same)
    refine ⟨stored.substitute (.result id) value, ?_, List.mem_map_of_mem member⟩
    rw [operation?_supplant wellFormed, if_neg kept, there]
    rfl
  · intro independent
    have held : graph.holds (.result id) = true := (graph.isLive_iff id).mpr ⟨operation, found⟩
    obtain ⟨rank, ranked⟩ := acyclic_iff_exists_ranked.mp acyclic
    obtain ⟨ranking, level, lower⟩ := ranked.exists_raised held apart independent
    exact (level.supplant wellFormed lower).acyclic

/-! ### Storing operations -/

/-- A well-formed operation reads only what is there already, so storing it closes no circle. -/
theorem Growth.acyclic (growth : graph.Growth next) (wellFormed : graph.WellFormed)
    (acyclic : graph.Acyclic) : next.Acyclic := by
  induction growth with
  | refl => exact acyclic
  | @tail middle last before adds inductionHypothesis =>
    obtain ⟨operation, verified, rfl⟩ := adds
    obtain ⟨rank, ranked⟩ := acyclic_iff_exists_ranked.mp inductionHypothesis
    have above : ∀ value ∈ operation.operands,
        rank value < (operation.operands.map rank).sum + 1 := fun value member =>
      Nat.lt_succ_of_le (List.le_sum_of_mem (List.mem_map_of_mem member))
    exact (ranked.store (Growth.changes before |>.wellFormed wellFormed) verified above).acyclic

theorem acyclic_of_same_reads (acyclic : graph.Acyclic)
    (reads : ∀ id value, next.Reads id value → graph.Reads id value) : next.Acyclic :=
  fun id circular => acyclic id (circular.mono reads)

theorem acyclic_addOutput (acyclic : graph.Acyclic) (name : String) (value : Value) :
    (graph.addOutput name value).state.Acyclic := by
  rcases graph.addOutput_cases name value with same | ⟨_, same⟩
  · rw [same]
    exact acyclic
  · rw [same]
    refine acyclic_of_same_reads acyclic fun id read reads => ?_
    obtain ⟨operation, found, member⟩ := reads
    exact ⟨operation, (operation?_withOutput graph name value id).symm.trans found, member⟩

/-- Constants read nothing, so placing operands changes no dependence. -/
theorem Places.dependsOn_iff {operands : List Operand} {values : List Value}
    (places : Places operands graph values next) {reader : Value} :
    next.DependsOn reader source ↔ graph.DependsOn reader source := by
  constructor
  · refine DependsOn.mono fun id value reads => ?_
    obtain ⟨operation, found, member⟩ := reads
    rcases places.operation?_cases found with before | ⟨_, bits, rfl⟩
    · exact ⟨operation, before, member⟩
    · cases member
  · refine DependsOn.mono fun id value reads => ?_
    obtain ⟨operation, found, member⟩ := reads
    exact ⟨operation, places.growth.extends.operation? id operation found, member⟩

/-! ### Replacing -/

/-- Putting a proposal in the place of an operation closes a circle: it is another value that
depends on the operation, or it is to read the operation or a value that depends on it. -/
def ClosesCircle (graph : Graph) (id : Nat) : Replacement → Prop
  | .existing value => value ≠ .result id ∧ graph.DependsOn value (.result id)
  | .constant _ => False
  | .fresh shape => ∃ value, .existing value ∈ shape.operands ∧
    (value = .result id ∨ graph.DependsOn value (.result id))

/-- What is built depends on an operation that was there before exactly if the proposal says so. -/
theorem Builds.dependsOn_iff {replacement : Replacement}
    (builds : Builds graph replacement value next) (wellFormed : graph.WellFormed)
    (live : graph.isLive id = true) (apart : value ≠ .result id) :
    next.DependsOn value (.result id) ↔ graph.ClosesCircle id replacement := by
  obtain ⟨operation, found⟩ := (graph.isLive_iff id).mp live
  have below := lt_size_of_operation? found
  cases builds with
  | existing _ => exact ⟨fun depends => ⟨apart, depends⟩, And.right⟩
  | constant bits =>
    refine ⟨fun depends => ?_, False.elim⟩
    obtain ⟨middle, ⟨stored, there, member⟩, _⟩ := dependsOn_result_iff.mp depends
    cases (operation?_store_self graph bits.operation).symm.trans there
    cases member
  | @fresh shape values placed places verified =>
    have wellFormedPlaced := places.growth.changes.wellFormed wellFormed
    have stored := operation?_store_self placed (shape.operation values)
    have reads : ∀ read, (placed.store (shape.operation values)).Reads placed.nodes.size read ↔
        read ∈ values := by
      intro read
      refine ⟨?_, fun member => ⟨_, stored, member⟩⟩
      rintro ⟨other, there, member⟩
      cases stored.symm.trans there
      exact member
    -- The operands were there before the operation was stored, so they depend on what they did.
    have earlier : ∀ read ∈ values, ((placed.store (shape.operation values)).DependsOn read
        (.result id) ↔ graph.DependsOn read (.result id)) := by
      intro read member
      have typed := Operation.exists_type_of_verify verified member
      exact ((placed.extends_store _).dependsOn_iff wellFormedPlaced
        ((placed.holds_iff read).mpr typed)).trans places.dependsOn_iff
    rw [dependsOn_result_iff]
    constructor
    · rintro ⟨read, member, reaches⟩
      rw [reads] at member
      rw [earlier read member] at reaches
      rcases standsFor_cases places.standFor member with inside | ⟨number, rfl, new⟩
      · exact ⟨read, inside, reaches⟩
      · rcases reaches with same | depends
        · cases same
          exact absurd below (Nat.not_lt.mpr new)
        · obtain ⟨_, _, same, readsNothing⟩ := depends.exists_reads
          cases same
          obtain ⟨_, there⟩ := (graph.isLive_iff _).mp readsNothing.isLive
          exact absurd (lt_size_of_operation? there) (Nat.not_lt.mpr new)
    · rintro ⟨named, inside, reaches⟩
      obtain ⟨read, member, stands⟩ := exists_of_forall₂ places.standFor inside
      cases stands
      exact ⟨named, (reads named).mpr member, reaches.imp_right (earlier named member).mpr⟩

theorem acyclic_replaceUses_iff (wellFormed : graph.WellFormed) (acyclic : graph.Acyclic)
    (apart : source ≠ target) {count : Nat}
    (moved : (graph.replaceUses source target).result = .ok count) :
    (graph.replaceUses source target).state.Acyclic ↔ ¬ graph.DependsOn target source := by
  rcases graph.replaceUses_cases source target with
    ⟨_, same⟩ | ⟨same, _⟩ | ⟨type, _, typedSource, _, same⟩
  · rw [same] at moved
    cases moved
  · exact absurd same apart
  · rw [same]
    have held := (graph.holds_iff source).mpr ⟨type, typedSource⟩
    exact acyclic_redirect_iff wellFormed acyclic held (Ne.symm apart)

theorem acyclic_replace_iff (wellFormed : graph.WellFormed) (acyclic : graph.Acyclic)
    {replacement : Replacement} (replaced : (graph.replace id replacement).result = .ok value) :
    (graph.replace id replacement).state.Acyclic ↔ ¬ graph.ClosesCircle id replacement := by
  generalize outcome : graph.replace id replacement = attempt at replaced
  have replaces : Replaces graph id replacement attempt :=
    outcome ▸ replaces wellFormed id replacement
  cases replaces with
  | absent _ => cases replaced
  | unbuilt _ _ => cases replaced
  | mistyped _ _ _ _ => cases replaced
  | itself _ proposed =>
    subst proposed
    exact ⟨fun _ closes => closes.1 rfl, fun _ => acyclic⟩
  | @supplanted operation built next found builds apart typed =>
    have live : graph.isLive id = true := (graph.isLive_iff id).mpr ⟨operation, found⟩
    rw [← builds.dependsOn_iff wellFormed live (Ne.symm apart)]
    exact acyclic_supplant_iff (builds.growth.changes.wellFormed wellFormed)
      (builds.growth.acyclic wellFormed acyclic)
      (builds.growth.extends.operation? id operation found) (Ne.symm apart)

/-- Moving the uses of a value to another one closes a circle exactly if the other one depended on
it; replacing an operation does exactly if the proposal says so. Declaring, building and
storing close none, and neither does what folding or canonical order proposes. -/
theorem circles_of_edits (reachable : graph.Reachable) (acyclic : graph.Acyclic) :
    (∀ source target count, source ≠ target →
      (graph.replaceUses source target).result = .ok count →
        (¬ (graph.replaceUses source target).state.Acyclic ↔ graph.DependsOn target source)) ∧
    (∀ id replacement value, (graph.replace id replacement).result = .ok value →
      (¬ (graph.replace id replacement).state.Acyclic ↔ graph.ClosesCircle id replacement)) ∧
    (∀ name type, (graph.addInput name type).2.Acyclic) ∧
    (∀ name value, (graph.addOutput name value).state.Acyclic) ∧
    (∀ blueprint, (graph.build blueprint).state.Acyclic) ∧
    (∀ operation, (graph.insert operation).state.Acyclic) ∧
    (∀ replacement, (graph.materialize replacement).state.Acyclic) ∧
    (∀ id operation options replacement, graph.operation? id = some operation →
      operation.fold graph.scope options = .folded replacement →
        (graph.replace id replacement).state.Acyclic) ∧
    (∀ id operation replacement, graph.operation? id = some operation →
      operation.canonicalize graph.scope = some replacement →
        (graph.replace id replacement).state.Acyclic) := by
  have wellFormed := reachable.wellFormed
  refine ⟨fun source target count apart moved => ?_, fun id replacement value replaced => ?_,
    fun name type => acyclic_of_same_reads acyclic fun _ _ reads => reads,
    acyclic_addOutput acyclic,
    fun blueprint => (growth_build graph blueprint).acyclic wellFormed acyclic,
    fun operation => (growth_insert graph operation).acyclic wellFormed acyclic,
    fun replacement => (growth_materialize graph replacement).acyclic wellFormed acyclic,
    fun id operation options replacement found proposed => ?_,
    fun id operation replacement found proposed => ?_⟩
  · rw [acyclic_replaceUses_iff wellFormed acyclic apart moved, not_not]
  · rw [acyclic_replace_iff wellFormed acyclic replaced, not_not]
  · have rewrite : graph.Rewrite true _ := .fold rfl found proposed
    exact rewrite.acyclic wellFormed acyclic
  · have rewrite : graph.Rewrite true _ := .canonicalize found proposed
    exact rewrite.acyclic wellFormed acyclic

/-- The mask reads the zero. If it takes the zero's place, it reads itself; a constant in that place
does not. -/
theorem circles_maskedQuotient :
    let moved := maskedQuotient.replaceUses (.result 0) (.result 2)
    let five : Replacement := .constant ⟨byte.width, byte.positive, 5⟩
    let replaced := maskedQuotient.replace 0 five
    maskedQuotient.Reachable ∧ maskedQuotient.Acyclic ∧
      moved.result = .ok 2 ∧ (∃ id, moved.state.order = .error (.cyclic id)) ∧
      replaced.result = .ok (.result 3) ∧ replaced.state.Acyclic := by
  intro moved five replaced
  obtain ⟨redirected, supplanted, _⟩ :=
    circles_of_edits reachable_maskedQuotient acyclic_maskedQuotient
  have reads : maskedQuotient.Reads 2 (.result 0) := ⟨_, rfl, by decide⟩
  have circular := (redirected (.result 0) (.result 2) 2 (by decide) rfl).mpr (.direct reads)
  have straight := (supplanted 0 five (.result 3) rfl).not.mpr id
  exact ⟨reachable_maskedQuotient, acyclic_maskedQuotient, rfl,
    not_acyclic_iff_order.mp circular, rfl, not_not.mp straight⟩

end BitGraph.Graph
