/-
This file proves that letting readers read another value is sound. Many places
change at once, so the results of everything that depends on them change at
once too. But the old results still solve the equations of the new graph, as far
as the two values agree, and a graph without circles has one solution. So a
pattern stays where it was if the new value has the pattern of the old one, and
nothing changes at all if the two have the same result. Replacing an operation
builds something behind the graph, lets it be read and drops the operation, and
what is added or dropped shows in no other result.
-/

import BitGraph.Proofs.Edit.Refusals
import BitGraph.Proofs.Evaluation
import BitGraph.Proofs.Proposal.Missing

namespace BitGraph.Graph

variable {graph : Graph} {assignment : Assignment} {source target value : Value}

/-! ### What evaluating gives each value -/

/-- The result that evaluating a graph gives a value. -/
def resultOf (graph : Graph) (assignment : Assignment) (value : Value) : Except GraphError Bits :=
  (graph.results assignment).bind (·.valueOf assignment value)

theorem Acyclic.solves_resultOf (acyclic : graph.Acyclic) (assignment : Assignment) :
    graph.Solves assignment (graph.resultOf assignment) := by
  obtain ⟨results, evaluated, solves⟩ := exists_solution acyclic assignment
  have same : graph.resultOf assignment = results.valueOf assignment := by
    funext value
    rw [resultOf, evaluated]
    rfl
  rw [same]
  exact solves

theorem evaluate_eq_resultOf (wellFormed : graph.WellFormed) (acyclic : graph.Acyclic)
    (assignment : Assignment) :
    graph.evaluate assignment = (graph.outputValues.map (graph.resultOf assignment)).mapM id :=
  evaluate_of_solves wellFormed acyclic (acyclic.solves_resultOf assignment)

/-- Operations that come or go do not change the results of those that stay. -/
theorem resultOf_of_extends {small large : Graph} (extends_ : Extends small large)
    (wellFormed : small.WellFormed) (acyclic : large.Acyclic) (held : small.holds value = true) :
    large.resultOf assignment value = small.resultOf assignment value :=
  ((acyclic.solves_resultOf assignment).of_extends extends_).unique wellFormed
    (acyclic.of_extends extends_) ((acyclic.of_extends extends_).solves_resultOf assignment) held

/-- A value that exists has a result that says more than that something is missing. -/
theorem resultOf_not_missing (wellFormed : graph.WellFormed) (acyclic : graph.Acyclic)
    (held : graph.holds value = true) : ¬ Missing (graph.resultOf assignment value) := by
  have denotes := (acyclic.solves_resultOf assignment).denotes wellFormed acyclic held
  generalize graph.resultOf assignment value = result at denotes
  induction denotes with
  | input index =>
    rintro ⟨number, failed⟩
    unfold Assignment.valueOf at failed
    split at failed <;> cases failed
  | @result id operation arguments found sameLength each inductionHypothesis =>
    refine operation.combine_not_missing fun argument member => ?_
    obtain ⟨index, inside, rfl⟩ := List.getElem_of_mem member
    have there : index < operation.operands.length := sameLength ▸ inside
    have reads : graph.Reads id operation.operands[index] :=
      ⟨operation, found, List.getElem_mem there⟩
    exact inductionHypothesis index _ _ (List.getElem?_eq_getElem there)
      (List.getElem?_eq_getElem inside) (wellFormed.holds_of_reads reads)

/-- A number that names no live operation has no result. -/
theorem missing_resultOf {id : Nat} (acyclic : graph.Acyclic) (dead : graph.isLive id = false) :
    Missing (graph.resultOf assignment (.result id)) := by
  obtain ⟨ids, ordered, arrangement⟩ := acyclic.exists_order
  refine ⟨id, ?_⟩
  have others : ∀ other ∈ ids, Value.result id ≠ .result other := by
    rintro other member same
    cases same
    obtain ⟨operation, found⟩ := (arrangement.mem_iff id).mp member
    rw [(graph.isLive_iff id).mpr ⟨operation, found⟩] at dead
    cases dead
  rw [resultOf, results, ordered]
  exact valueOf_foldl_other graph assignment ids [] others

/-! ### Results that carry over -/

/-- The values of a graph, but for those that are dropped, are there in another graph too, and with
related results. So are those that drive the outputs, one by one. -/
structure CarriesOver (related : Except GraphError Bits → Except GraphError Bits → Prop)
    (assignment : Assignment) (dropped : List Value) (before after : Graph) : Prop where
  values : ∀ value, before.holds value = true → value ∉ dropped → after.holds value = true ∧
    related (before.resultOf assignment value) (after.resultOf assignment value)
  outputs : List.Forall₂ (fun old new =>
    related (before.resultOf assignment old) (after.resultOf assignment new))
      before.outputValues after.outputValues

variable {related : Except GraphError Bits → Except GraphError Bits → Prop}
  (tolerance : Tolerance related) {dropped : List Value}

include tolerance in
theorem CarriesOver.trans {first second third : Graph} {later : List Value}
    (left : CarriesOver related assignment dropped first second)
    (right : CarriesOver related assignment later second third) :
    CarriesOver related assignment (dropped ++ later) first third where
  values value held kept := by
    obtain ⟨keptFirst, keptSecond⟩ := not_or.mp (List.mem_append.not.mp kept)
    obtain ⟨between, close⟩ := left.values value held keptFirst
    obtain ⟨there, closer⟩ := right.values value between keptSecond
    exact ⟨there, tolerance.trans close closer⟩
  outputs := by
    refine forall₂_of_common (fun middle old new => ?_) left.outputs.flip right.outputs
    exact tolerance.trans

include tolerance in
theorem carriesOver_of_same {before after : Graph} (wellFormed : before.WellFormed)
    (wellFormedAfter : after.WellFormed) (outputs : after.outputs = before.outputs)
    (kept : ∀ value, before.holds value = true → value ∉ dropped → after.holds value = true)
    (same : ∀ value, before.holds value = true → after.holds value = true →
      before.resultOf assignment value = after.resultOf assignment value) :
    CarriesOver related assignment dropped before after where
  values value held staying := by
    have there := kept value held staying
    exact ⟨there, same value held there ▸ tolerance.refl _⟩
  outputs := by
    have sameValues : after.outputValues = before.outputValues := by
      rw [outputValues, outputs, outputValues]
    rw [sameValues]
    refine List.forall₂_same.mpr fun value driven => ?_
    have there := wellFormedAfter.holds_of_output (sameValues ▸ driven)
    exact same value (wellFormed.holds_of_output driven) there ▸ tolerance.refl _

include tolerance in
theorem carriesOver_of_growth {next : Graph} (growth : graph.Growth next)
    (wellFormed : graph.WellFormed) (acyclic : graph.Acyclic) :
    CarriesOver related assignment dropped graph next := by
  have extended := growth.extends
  have acyclicNext := growth.acyclic wellFormed acyclic
  refine carriesOver_of_same tolerance wellFormed (growth.changes.wellFormed wellFormed)
    extended.outputs (fun value held _ => extended.holds held) fun value held _ => ?_
  exact (resultOf_of_extends extended wellFormed acyclicNext held).symm

include tolerance in
theorem carriesOver_drop {id : Nat} {operation : Operation} (wellFormed : graph.WellFormed)
    (wellFormedAfter : (graph.drop id operation).WellFormed) (acyclic : graph.Acyclic) :
    CarriesOver related assignment [.result id] graph (graph.drop id operation) := by
  have extended := graph.extends_drop id operation
  refine carriesOver_of_same tolerance wellFormed wellFormedAfter extended.outputs.symm
    (fun value held kept => ?_) fun value _ there =>
      resultOf_of_extends extended wellFormedAfter acyclic there
  have other : value ≠ .result id := fun same => kept (List.mem_singleton.mpr same)
  rw [holds_iff] at held ⊢
  rwa [typeOf_drop graph id operation other]

include tolerance in
/-- Results carry over to the redirected graph as far as the value that is read now agrees with the
one that was. -/
theorem carriesOver_redirect (wellFormed : graph.WellFormed)
    (wellFormedAfter : (graph.redirect source target).WellFormed) (acyclic : graph.Acyclic)
    (acyclicAfter : (graph.redirect source target).Acyclic)
    (close : related (graph.resultOf assignment source) (graph.resultOf assignment target)) :
    CarriesOver related assignment [] graph (graph.redirect source target) := by
  have near := (acyclic.solves_resultOf assignment).redirect tolerance wellFormed close
  have settled : ∀ value, (graph.redirect source target).holds value = true →
      related (graph.resultOf assignment value)
        ((graph.redirect source target).resultOf assignment value) := fun value =>
    near.related_solution tolerance wellFormedAfter acyclicAfter
      (acyclicAfter.solves_resultOf assignment)
  refine ⟨fun value held _ => ?_, ?_⟩
  · have heldAfter : (graph.redirect source target).holds value = true := by
      rw [holds_iff] at held ⊢
      rwa [typeOf_redirect wellFormed]
    exact ⟨heldAfter, settled value heldAfter⟩
  · rw [outputValues_redirect wellFormed, List.forall₂_map_right_iff, List.forall₂_same]
    intro read driven
    refine tolerance.trans (related_substitute tolerance close read) (settled _ ?_)
    refine wellFormedAfter.holds_of_output ?_
    rw [outputValues_redirect wellFormed]
    exact List.mem_map_of_mem driven

/-! ### Substitution -/

/-- From one graph to another, a result has been put in the place of an old one, and this is sound.
Patterns stay if the new result is the pattern that the old one is, where it is one; all results
stay if the two are the same. -/
structure Substitutes (assignment : Assignment) (dropped : List Value) (before after : Graph)
    (old new : Except GraphError Bits) : Prop where
  patterns : Refines old new → CarriesOver Refines assignment dropped before after
  evaluates : Refines old new → ∀ patterns, before.evaluate assignment = .ok patterns →
    after.evaluate assignment = .ok patterns
  results : old = new → CarriesOver Eq assignment dropped before after
  evaluatesSame : old = new → after.evaluate assignment = before.evaluate assignment

section Substitutes

variable {before after : Graph} (wellFormed : before.WellFormed)
  (wellFormedAfter : after.WellFormed) (acyclic : before.Acyclic) (acyclicAfter : after.Acyclic)

include wellFormed wellFormedAfter acyclic acyclicAfter

theorem CarriesOver.evaluate_ok (carries : CarriesOver Refines assignment dropped before after)
    {patterns : List Bits} (evaluated : before.evaluate assignment = .ok patterns) :
    after.evaluate assignment = .ok patterns := by
  rw [evaluate_eq_resultOf wellFormed acyclic] at evaluated
  rw [evaluate_eq_resultOf wellFormedAfter acyclicAfter]
  refine mapM_of_refines ?_ evaluated
  exact List.forall₂_map_left_iff.mpr (List.forall₂_map_right_iff.mpr carries.outputs)

theorem CarriesOver.evaluate_eq (carries : CarriesOver Eq assignment dropped before after) :
    after.evaluate assignment = before.evaluate assignment := by
  have same : before.outputValues.map (before.resultOf assignment) =
      after.outputValues.map (after.resultOf assignment) := by
    rw [← List.forall₂_eq_eq_eq]
    exact List.forall₂_map_left_iff.mpr (List.forall₂_map_right_iff.mpr carries.outputs)
  rw [evaluate_eq_resultOf wellFormedAfter acyclicAfter, evaluate_eq_resultOf wellFormed acyclic,
    same]

theorem substitutes_of_carriesOver {old new : Except GraphError Bits}
    (patterns : Refines old new → CarriesOver Refines assignment dropped before after)
    (results : old = new → CarriesOver Eq assignment dropped before after) :
    Substitutes assignment dropped before after old new where
  patterns := patterns
  evaluates close _ := (patterns close).evaluate_ok wellFormed wellFormedAfter acyclic acyclicAfter
  results := results
  evaluatesSame same :=
    (results same).evaluate_eq wellFormed wellFormedAfter acyclic acyclicAfter

end Substitutes

theorem redirect_substitutes (wellFormed : graph.WellFormed) (acyclic : graph.Acyclic)
    {type : BitType} (apart : source ≠ target) (typedSource : graph.typeOf source = some type)
    (typedTarget : graph.typeOf target = some type)
    (independent : ¬ graph.DependsOn target source) (assignment : Assignment) :
    Substitutes assignment [] graph (graph.redirect source target)
      (graph.resultOf assignment source) (graph.resultOf assignment target) := by
  have after := wellFormed.redirect apart typedSource typedTarget
  have held := (graph.holds_iff source).mpr ⟨type, typedSource⟩
  have acyclicAfter := (acyclic_redirect_iff wellFormed acyclic held apart.symm).mpr independent
  refine substitutes_of_carriesOver wellFormed after acyclic acyclicAfter ?_ ?_
  · exact carriesOver_redirect tolerance_refines wellFormed after acyclic acyclicAfter
  · exact carriesOver_redirect tolerance_eq wellFormed after acyclic acyclicAfter

/-! ### Replacing -/

/-- Nothing reads what does not exist. -/
theorem WellFormed.uses_of_absent (wellFormed : graph.WellFormed)
    (absent : graph.holds value = false) : graph.uses value = [] := by
  refine List.eq_nil_iff_forall_not_mem.mpr fun use member => ?_
  have read := (wellFormed.mem_uses_iff value use).mp member
  rw [wellFormed.holds_of_readAt? use value read] at absent
  cases absent

section Replace

variable {next : Graph} {id : Nat} {operation : Operation} {replacement : Replacement}
  (wellFormed : graph.WellFormed) (acyclic : graph.Acyclic)

include wellFormed acyclic in
/-- What is built for a proposal has the result that the proposal has in the graph, unless the
proposal mentions a number that building it has given out. -/
theorem Builds.agreeUnlessMissing (builds : Builds graph replacement value next)
    (assignment : Assignment) :
    AgreeUnlessMissing (replacement.outcome (graph.resultOf assignment))
      (next.resultOf assignment value) := by
  have acyclicNext := builds.growth.acyclic wellFormed acyclic
  have solves := acyclic.solves_resultOf assignment
  have solvesNext := acyclicNext.solves_resultOf assignment
  rw [← builds.outcome solvesNext]
  refine replacement.outcome_agreeUnlessMissing fun read => ?_
  by_cases held : graph.holds read = true
  · exact .inl (resultOf_of_extends builds.growth.extends wellFormed acyclicNext held).symm
  · cases read with
    | input index => exact .inl ((solves.input index).trans (solvesNext.input index).symm)
    | result number => exact .inr (missing_resultOf acyclic (Bool.eq_false_of_not_eq_true held))

include wellFormed in
theorem supplanted_gone (found : graph.operation? id = some operation)
    (apart : Value.result id ≠ value) (typed : graph.typeOf value = some operation.type) :
    (graph.supplant id operation value).isLive id = false ∧
      (graph.supplant id operation value).uses (.result id) = [] := by
  have dead : (graph.supplant id operation value).isLive id = false := by
    rw [Bool.eq_false_iff, ne_eq, isLive_iff, operation?_supplant wellFormed, if_pos rfl]
    nofun
  have changes := changes_supplant wellFormed found apart typed
  exact ⟨dead, (changes.wellFormed wellFormed).uses_of_absent dead⟩

include tolerance wellFormed acyclic in
/-- Results carry over to the graph in which a value supplants an operation. -/
theorem carriesOver_supplant (found : graph.operation? id = some operation)
    (apart : Value.result id ≠ value) (typed : graph.typeOf value = some operation.type)
    (independent : ¬ graph.DependsOn value (.result id))
    (close : related (graph.resultOf assignment (.result id)) (graph.resultOf assignment value)) :
    CarriesOver related assignment [.result id] graph (graph.supplant id operation value) := by
  have held : graph.holds (.result id) = true := (graph.isLive_iff id).mpr ⟨operation, found⟩
  have redirected := wellFormed.redirect apart (typeOf_result found) typed
  have supplanted := (changes_supplant wellFormed found apart typed).wellFormed wellFormed
  have acyclicRedirected : (graph.redirect (.result id) value).Acyclic :=
    (acyclic_redirect_iff wellFormed acyclic held apart.symm).mpr independent
  have moved := carriesOver_redirect tolerance wellFormed redirected acyclic acyclicRedirected close
  have dropped : CarriesOver related assignment [.result id] (graph.redirect (.result id) value)
      (graph.supplant id operation value) :=
    carriesOver_drop tolerance redirected supplanted acyclicRedirected
  exact moved.trans tolerance dropped

/-- Replacing an operation has done no more than store something, or a value supplants it. -/
theorem Replaces.growth_or_supplant {attempt : Attempt Graph Value}
    (replaces : Replaces graph id replacement attempt) : graph.Growth attempt.state ∨
      ∃ operation value next, graph.operation? id = some operation ∧
        Builds graph replacement value next ∧ Value.result id ≠ value ∧
          next.typeOf value = some operation.type ∧
            attempt.state = next.supplant id operation value := by
  cases replaces with
  | absent _ => exact .inl .refl
  | unbuilt _ places => exact .inl places.growth
  | itself _ _ => exact .inl .refl
  | mistyped _ builds _ _ => exact .inl builds.growth
  | supplanted found builds apart typed => exact .inr ⟨_, _, _, found, builds, apart, typed, rfl⟩

include tolerance wellFormed acyclic in
/-- Results carry over to the graph that replacing an operation leaves, whether the proposal is
accepted or refused. -/
theorem carriesOver_replace (straight : ¬ graph.ClosesCircle id replacement)
    (close : ∀ value next, Builds graph replacement value next →
      related (graph.resultOf assignment (.result id)) (next.resultOf assignment value)) :
    CarriesOver related assignment [.result id] graph (graph.replace id replacement).state := by
  rcases (replaces wellFormed id replacement).growth_or_supplant with
    growth | ⟨operation, value, next, found, builds, apart, typed, same⟩
  · exact carriesOver_of_growth tolerance growth wellFormed acyclic
  · have live : graph.isLive id = true := (graph.isLive_iff id).mpr ⟨operation, found⟩
    have wellFormedNext := builds.growth.changes.wellFormed wellFormed
    have acyclicNext := builds.growth.acyclic wellFormed acyclic
    have extended := builds.growth.extends
    have independent : ¬ next.DependsOn value (.result id) :=
      (builds.dependsOn_iff wellFormed live apart.symm).not.mpr straight
    have kept : next.resultOf assignment (.result id) = graph.resultOf assignment (.result id) :=
      resultOf_of_extends extended wellFormed acyclicNext live
    have stored : CarriesOver related assignment [] graph next :=
      carriesOver_of_growth tolerance builds.growth wellFormed acyclic
    have supplanted := carriesOver_supplant tolerance wellFormedNext acyclicNext
      (extended.operation? id operation found) apart typed independent
      (kept ▸ close value next builds)
    rw [same]
    exact stored.trans tolerance supplanted

include wellFormed acyclic in
theorem acyclic_replace_of_straight (straight : ¬ graph.ClosesCircle id replacement) :
    (graph.replace id replacement).state.Acyclic := by
  cases outcome : (graph.replace id replacement).result with
  | ok value => exact (acyclic_replace_iff wellFormed acyclic outcome).mpr straight
  | error reason => exact (replace_refused wellFormed outcome).acyclic wellFormed acyclic

include wellFormed acyclic in
theorem replace_substitutes (found : graph.operation? id = some operation)
    (straight : ¬ graph.ClosesCircle id replacement) (assignment : Assignment) :
    Substitutes assignment [.result id] graph (graph.replace id replacement).state
      (graph.resultOf assignment (.result id))
      (replacement.outcome (graph.resultOf assignment)) := by
  have after := (changes_replace graph id replacement).wellFormed wellFormed
  have acyclicAfter := acyclic_replace_of_straight wellFormed acyclic straight
  refine substitutes_of_carriesOver wellFormed after acyclic acyclicAfter
    (fun close => ?_) fun close => ?_
  · refine carriesOver_replace tolerance_refines wellFormed acyclic straight
      fun value next builds => tolerance_refines.trans close ?_
    exact (builds.agreeUnlessMissing wellFormed acyclic assignment).refines
  · -- The operation exists, so the result that it shares with the proposal is no missing one.
    have held : graph.holds (.result id) = true := (graph.isLive_iff id).mpr ⟨operation, found⟩
    have present : ¬ Missing (replacement.outcome (graph.resultOf assignment)) :=
      close ▸ resultOf_not_missing wellFormed acyclic held
    refine carriesOver_replace tolerance_eq wellFormed acyclic straight
      fun value next builds => close.trans ?_
    exact (builds.agreeUnlessMissing wellFormed acyclic assignment).resolve_right present

include wellFormed acyclic in
/-- An operation that was not replaced in the end has lost nothing, and neither has any other
value. -/
theorem carriesOver_replace_of_live
    (live : (graph.replace id replacement).state.isLive id = true) (assignment : Assignment) :
    CarriesOver Eq assignment [] graph (graph.replace id replacement).state := by
  rcases (replaces wellFormed id replacement).growth_or_supplant with
    growth | ⟨operation, value, next, found, builds, apart, typed, same⟩
  · exact carriesOver_of_growth tolerance_eq growth wellFormed acyclic
  · have gone := supplanted_gone (builds.growth.changes.wellFormed wellFormed)
      (builds.growth.extends.operation? id operation found) apart typed
    rw [same, gone.1] at live
    cases live

end Replace

/-- Moving the uses of a value to another one that does not depend on it moves all of them, and is a
sound substitution of the one for the other, for all values and all outputs. So is replacing an
operation, for all values but the operation itself; and where the operation stays, no result
changes. -/
theorem retargeting_substitutes (reachable : graph.Reachable) (acyclic : graph.Acyclic)
    (assignment : Assignment) :
    (∀ source target type, source ≠ target → graph.typeOf source = some type →
      graph.typeOf target = some type → ¬ graph.DependsOn target source →
        let moved := graph.replaceUses source target
        moved.result = .ok (graph.uses source).length ∧ moved.state.uses source = [] ∧
        Substitutes assignment [] graph moved.state
          (graph.resultOf assignment source) (graph.resultOf assignment target)) ∧
    (∀ id operation replacement, graph.operation? id = some operation →
      ¬ graph.ClosesCircle id replacement →
        let built := graph.materialize replacement
        let replaced := graph.replace id replacement
        (∀ value, built.result = .ok value → value ≠ .result id →
          built.state.typeOf value = some operation.type →
            replaced.result = .ok value ∧ replaced.state.isLive id = false ∧
              replaced.state.uses (.result id) = []) ∧
        (replaced.state.isLive id = true → CarriesOver Eq assignment [] graph replaced.state) ∧
        Substitutes assignment [.result id] graph replaced.state
          (graph.resultOf assignment (.result id))
          (replacement.outcome (graph.resultOf assignment))) := by
  have wellFormed := reachable.wellFormed
  refine ⟨fun source target type apart typedSource typedTarget independent => ?_,
    fun id operation replacement found straight => ⟨fun value done other typed => ?_,
      fun live => carriesOver_replace_of_live wellFormed acyclic live assignment,
      replace_substitutes wellFormed acyclic found straight assignment⟩⟩
  · have heldSource := (graph.holds_iff source).mpr ⟨type, typedSource⟩
    have heldTarget := (graph.holds_iff target).mpr ⟨type, typedTarget⟩
    rw [replaceUses_eq_succeed apart typedSource typedTarget]
    refine ⟨rfl, ?_, ?_⟩
    · exact (uses_redirect graph apart heldSource heldTarget source).trans (if_pos rfl)
    · exact redirect_substitutes wellFormed acyclic apart typedSource typedTarget independent
        assignment
  · rcases materialize_cases graph replacement with
      ⟨built, next, same, builds⟩ | ⟨_, _, _, _, same, _⟩
    · rw [same] at done typed
      cases done
      rw [replace_of_typeOf wellFormed found same builds other.symm typed]
      have gone := supplanted_gone (builds.growth.changes.wellFormed wellFormed)
        (builds.growth.extends.operation? id operation found) other.symm typed
      exact ⟨rfl, gone⟩
    · rw [same] at done
      cases done

/-- A sum with zero, which is an output, and its difference with itself, which is another one. -/
def paddedSum : Graph :=
  let input := (addInput {} "x" byte).2
  let zero := (input.build (.constant ⟨byte.width, byte.positive, 0⟩)).state
  let sum := (zero.build (.variadic .add [.input 0, .result 0])).state
  let difference := (sum.build (.binary .sub (.result 1) (.result 1))).state
  let first := (difference.addOutput "sum" (.result 1)).state
  (first.addOutput "difference" (.result 2)).state

/-- The input can be read in the place of the sum, and so can its disjunction with a zero that is
still to be built. -/
theorem retargeting_substitutes_paddedSum :
    let five : Bits := ⟨byte.width, byte.positive, 5⟩
    let zero : Bits := ⟨byte.width, byte.positive, 0⟩
    let assignment : Assignment := fun _ => some five
    let joined : Replacement :=
      .fresh ⟨.or, [.existing (.input 0), .pending zero], .none, byte⟩
    let moved := paddedSum.replaceUses (.result 1) (.input 0)
    let replaced := paddedSum.replace 1 joined
    paddedSum.Reachable ∧ paddedSum.Acyclic ∧
      paddedSum.evaluate assignment = .ok [five, zero] ∧
      moved.result = .ok 3 ∧ moved.state.uses (.result 1) = [] ∧
      moved.state.outputValues = [.input 0, .result 2] ∧
      moved.state.evaluate assignment = .ok [five, zero] ∧
      replaced.result = .ok (.result 4) ∧ replaced.state.isLive 1 = false ∧
      replaced.state.evaluate assignment = .ok [five, zero] := by
  intro five zero assignment joined moved replaced
  have reachable : paddedSum.Reachable :=
    ⟨{}, .step (.step (.step (.step (.step (.step .start (.addInput _ _)) (.build _)) (.build _))
      (.build _)) (.addOutput _ _)) (.addOutput _ _)⟩
  have acyclic : paddedSum.Acyclic := acyclic_of_ascending (by decide)
  have solves := acyclic.solves_resultOf assignment
  have given : paddedSum.resultOf assignment (.input 0) = .ok five := solves.input 0
  have constant : paddedSum.resultOf assignment (.result 0) = .ok zero :=
    solves.result 0 ⟨.constant, [], .constant 0, byte⟩ (by decide)
  have sum : paddedSum.resultOf assignment (.result 1) = .ok five := by
    rw [solves.result 1 ⟨.add, [.input 0, .result 0], .none, byte⟩ (by decide)]
    simp only [List.map, given, constant]
    decide
  have difference : paddedSum.resultOf assignment (.result 2) = .ok zero := by
    rw [solves.result 2 ⟨.sub, [.result 1, .result 1], .none, byte⟩ (by decide)]
    simp only [List.map, sum]
    decide
  have evaluated : paddedSum.evaluate assignment = .ok [five, zero] := by
    rw [evaluate_eq_resultOf reachable.wellFormed acyclic,
      show paddedSum.outputValues = [.result 1, .result 2] by decide]
    simp only [List.map, sum, difference]
    rfl
  have joins : joined.outcome (paddedSum.resultOf assignment) = .ok five := by
    simp only [joined, Replacement.outcome, Shape.outcome, List.map, Operand.outcome, given]
    decide
  have independent : ¬ paddedSum.DependsOn (.input 0) (.result 1) := by
    intro depends
    obtain ⟨_, _, ⟨⟩, _⟩ := depends.exists_reads
  have straight : ¬ paddedSum.ClosesCircle 1 joined := by
    rintro ⟨value, member, reaches⟩
    simp only [List.mem_cons, Operand.existing.injEq, reduceCtorEq, List.not_mem_nil,
      or_false] at member
    subst member
    exact reaches.elim (by decide) independent
  obtain ⟨redirecting, replacing⟩ := retargeting_substitutes reachable acyclic assignment
  obtain ⟨count, unread, reading⟩ := redirecting (.result 1) (.input 0) byte (by decide)
    (by decide) (by decide) independent
  obtain ⟨supplants, _, joining⟩ := replacing 1
    ⟨.add, [.input 0, .result 0], .none, byte⟩ joined (by decide) straight
  obtain ⟨stands, dead, _⟩ := supplants (.result 4) (by decide) (by decide) (by decide)
  exact ⟨reachable, acyclic, evaluated, count, unread, by decide,
    (reading.evaluatesSame (sum.trans given.symm)).trans evaluated, stands, dead,
    (joining.evaluatesSame (sum.trans joins.symm)).trans evaluated⟩

end BitGraph.Graph
