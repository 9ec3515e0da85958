/-
This file proves that the record of a run never feeds back into the graph. What a
pass makes of a graph, and how many changes it counts, is settled by the graph and
by the options for folding; which operations were warned about, how many changes
were counted before and what the sink holds only decide on what is reported.
-/

import BitGraph.Proofs.Simplify.Routines

namespace BitGraph

variable {Result Next : Type}

/-! ### Records that are not consulted -/

/-- What an attempt does to a graph with these options for folding, whatever the record of the run
is: what comes of it, the graph that it leaves behind and how many changes it counts. -/
def Effect (attempt : Workspace → Attempt Workspace Result) (graph : Graph)
    (options : FoldOptions) (result : Except GraphError Result) (after : Graph)
    (counted : Nat) : Prop :=
  ∀ session : Session, session.plan.folding = options → ∃ later : Session,
    attempt ⟨graph, session⟩ = ⟨result, after, later⟩ ∧ later.plan = session.plan ∧
      later.changes = session.changes + counted

/-- An attempt has some effect on each graph, so it depends neither on the warnings and the changes
so far, nor on the sink, nor on the rest of the plan. -/
def Oblivious (attempt : Workspace → Attempt Workspace Result) : Prop :=
  ∀ graph options, ∃ result after counted, Effect attempt graph options result after counted

namespace Effect

variable {first : Workspace → Attempt Workspace Result}
  {next : Result → Workspace → Attempt Workspace Next} {graph middle after : Graph}
  {options : FoldOptions} {counted more : Nat}

theorem ended (result : Except GraphError Result) (graph : Graph) (options : FoldOptions) :
    Effect (fun work => ⟨result, work⟩) graph options result graph 0 :=
  fun session _ => ⟨session, rfl, rfl, rfl⟩

theorem andThen {result : Result} {final : Except GraphError Next}
    (effect : Effect first graph options (.ok result) middle counted)
    (later : Effect (next result) middle options final after more) :
    Effect (fun work => (first work).andThen next) graph options final after (counted + more) := by
  intro session folding
  obtain ⟨between, here, kept, changes⟩ := effect session folding
  obtain ⟨last, there, keptAgain, changesAgain⟩ := later between (kept ▸ folding)
  simp only [here]
  refine ⟨last, there, keptAgain.trans kept, ?_⟩
  rw [changesAgain, changes, Nat.add_assoc]

theorem andThen_of_error {reason : GraphError}
    (effect : Effect first graph options (.error reason) middle counted) :
    Effect (fun work => (first work).andThen next) graph options (.error reason) middle
      counted := by
  intro session folding
  obtain ⟨between, here, kept, changes⟩ := effect session folding
  simp only [here]
  exact ⟨between, rfl, kept, changes⟩

/-- What is known of one run is true of its effect. -/
theorem of_made {attempt : Workspace → Attempt Workspace Result} (oblivious : Oblivious attempt)
    {session later : Session} {result : Except GraphError Result}
    (made : attempt ⟨graph, session⟩ = ⟨result, after, later⟩) :
    ∃ counted, Effect attempt graph session.plan.folding result after counted := by
  obtain ⟨_, _, counted, effect⟩ := oblivious graph session.plan.folding
  obtain ⟨_, madeAgain, _⟩ := effect session rfl
  cases made.symm.trans madeAgain
  exact ⟨counted, effect⟩

end Effect

namespace Oblivious

/-- It is enough that an attempt does, on each graph and with each options for folding, what an
oblivious one does. -/
theorem of_each {attempt : Workspace → Attempt Workspace Result}
    (each : ∀ (graph : Graph) (options : FoldOptions),
      ∃ other : Workspace → Attempt Workspace Result, Oblivious other ∧
        ∀ session : Session, session.plan.folding = options →
          attempt ⟨graph, session⟩ = other ⟨graph, session⟩) : Oblivious attempt := by
  intro graph options
  obtain ⟨other, oblivious, same⟩ := each graph options
  obtain ⟨result, after, counted, effect⟩ := oblivious graph options
  refine ⟨result, after, counted, fun session folding => ?_⟩
  rw [same session folding]
  exact effect session folding

theorem ended (result : Except GraphError Result) :
    Oblivious fun work : Workspace => ⟨result, work⟩ :=
  fun graph options => ⟨result, graph, 0, .ended result graph options⟩

theorem succeed (result : Result) : Oblivious fun work : Workspace => .succeed result work :=
  ended (.ok result)

theorem andThen {first : Workspace → Attempt Workspace Result}
    {next : Result → Workspace → Attempt Workspace Next} (oblivious : Oblivious first)
    (later : ∀ result, Oblivious (next result)) :
    Oblivious fun work => (first work).andThen next := by
  intro graph options
  obtain ⟨result, middle, counted, effect⟩ := oblivious graph options
  cases result with
  | error reason => exact ⟨_, _, _, effect.andThen_of_error⟩
  | ok result =>
    obtain ⟨final, after, more, effectAfter⟩ := later result middle options
    exact ⟨_, _, _, effect.andThen effectAfter⟩

theorem edit (change : Graph → Attempt Graph Result) :
    Oblivious fun work => work.edit change :=
  fun graph _ => ⟨(change graph).result, (change graph).state, 0,
    fun session _ => ⟨session, rfl, rfl, rfl⟩⟩

/-- A change adds one to the count, whatever the count was and whether or not it is reported. -/
theorem record (result : Result) (code : Code) (id : Nat) (message : Graph → String) :
    Oblivious fun work => .succeed result (work.record code id (message work.graph)) :=
  fun graph _ => ⟨.ok result, graph, 1, fun session _ =>
    ⟨session.record code id (message graph), rfl, session.plan_record _ _ _,
      session.changes_record _ _ _⟩⟩

/-- Whether an operation was warned about before decides on the report and on nothing else. -/
theorem warnOnce (result : Result) (id : Nat) (diagnostic : Diagnostic) :
    Oblivious fun work : Workspace =>
      .succeed result { work with session := work.session.warnOnce id diagnostic } :=
  fun graph _ => ⟨.ok result, graph, 0, fun session _ =>
    ⟨session.warnOnce id diagnostic, rfl, session.plan_warnOnce _ _, session.changes_warnOnce _ _⟩⟩

end Oblivious

/-! ### Passes do not consult the record -/

namespace Workspace

theorem oblivious_replace (id : Nat) (replacement : Replacement) (code : Code)
    (message : String) : Oblivious fun work => work.replace id replacement code message :=
  (Oblivious.edit _).andThen fun _ => .record true code id fun _ => message

theorem oblivious_foldStep (id : Nat) : Oblivious (foldStep id) := by
  refine .of_each fun graph options => ?_
  cases found : graph.operation? id with
  | none => exact ⟨_, .succeed false, fun session _ => by simp only [foldStep, found]⟩
  | some operation =>
    cases proposed : operation.fold graph.scope options with
    | folded replacement =>
      exact ⟨_, oblivious_replace id replacement .folded ("folded to " ++ replacement.render),
        fun session folding => by simp only [foldStep, found, folding, proposed]⟩
    | unchanged =>
      exact ⟨_, .succeed false, fun session folding => by
        simp only [foldStep, found, folding, proposed]⟩
    | declined reason =>
      cases zero : reason.isDivisionByZero with
      | false =>
        exact ⟨_, .succeed false, fun session folding => by
          simp only [foldStep, found, folding, proposed, zero, Bool.false_eq_true, if_false]⟩
      | true =>
        exact ⟨_, .warnOnce false id (divisionWarning operation), fun session folding => by
          simp only [foldStep, found, folding, proposed, zero, if_true]⟩

theorem oblivious_canonicalizeStep (id : Nat) : Oblivious (canonicalizeStep id) := by
  refine .of_each fun graph options => ?_
  cases found : graph.operation? id with
  | none => exact ⟨_, .succeed false, fun session _ => by simp only [canonicalizeStep, found]⟩
  | some operation =>
    cases proposed : operation.canonicalize graph.scope with
    | none =>
      exact ⟨_, .succeed false, fun session _ => by
        simp only [canonicalizeStep, found, proposed]⟩
    | some replacement =>
      exact ⟨_, oblivious_replace id replacement .canonicalized
          ("canonicalized to " ++ replacement.render),
        fun session _ => by simp only [canonicalizeStep, found, proposed]⟩

theorem oblivious_mergeStep (id : Nat) (met : List (Operation × Nat)) :
    Oblivious (mergeStep id met) := by
  refine .of_each fun graph options => ?_
  cases stored : graph.stored? id with
  | none => exact ⟨_, .succeed (false, met), fun session _ => by simp only [mergeStep, stored]⟩
  | some operation =>
    cases known : met.lookup operation with
    | none =>
      exact ⟨_, .succeed (false, (operation, id) :: met), fun session _ => by
        simp only [mergeStep, stored, known]⟩
    | some first =>
      have merges := (Oblivious.edit (·.replaceUses (.result id) (.result first))).andThen fun _ =>
        (Oblivious.edit (·.erase id)).andThen fun _ =>
          .record (true, met) .merged id fun _ => "merged into %" ++ Numeral.write 10 first
      exact ⟨_, merges, fun session _ => by simp only [mergeStep, stored, known]⟩

theorem oblivious_eraseStep (id : Nat) : Oblivious (eraseStep id) :=
  (Oblivious.edit _).andThen fun _ => .record true .erased id fun graph =>
    "erased unused " ++ ((graph.stored? id).map (·.kind.name)).getD ""

theorem oblivious_walk {step : Nat → Workspace → Attempt Workspace Bool}
    (each : ∀ id, Oblivious (step id)) (ids : List Nat) : Oblivious (walk step ids) := by
  induction ids with
  | nil => exact .succeed false
  | cons id rest inductionHypothesis =>
    exact (each id).andThen fun changed => inductionHypothesis.andThen fun more =>
      .succeed (changed || more)

theorem oblivious_mergeWalk (ids : List Nat) (met : List (Operation × Nat)) :
    Oblivious (mergeWalk ids met) := by
  induction ids generalizing met with
  | nil => exact .succeed false
  | cons id rest inductionHypothesis =>
    rw [funext (mergeWalk_cons_eq id rest met)]
    exact (oblivious_mergeStep id met).andThen fun (changed, met) =>
      (inductionHypothesis met).andThen fun more => .succeed (changed || more)

end Workspace

theorem Pass.oblivious_run (pass : Pass) : Oblivious pass.run := by
  refine .of_each fun graph options => ?_
  cases ordered : graph.order with
  | error reason => exact ⟨_, .ended (.error reason), fun session _ => by
      simp only [run, ordered, Attempt.fail]⟩
  | ok order =>
    cases pass with
    | fold => exact ⟨_, Workspace.oblivious_walk Workspace.oblivious_foldStep order,
        fun session _ => by simp only [run, ordered]⟩
    | canonicalize => exact ⟨_, Workspace.oblivious_walk Workspace.oblivious_canonicalizeStep order,
        fun session _ => by simp only [run, ordered]⟩
    | merge => exact ⟨_, Workspace.oblivious_mergeWalk order [],
        fun session _ => by simp only [run, ordered]⟩
    | sweep => exact ⟨_, Workspace.oblivious_walk Workspace.oblivious_eraseStep
        (order.reverse.filter (· ∈ graph.unneeded)), fun session _ => by simp only [run, ordered]⟩

namespace Workspace

theorem oblivious_runPasses (passes : List Pass) : Oblivious (runPasses passes) := by
  induction passes with
  | nil => exact .succeed false
  | cons pass rest inductionHypothesis =>
    exact pass.oblivious_run.andThen fun changed => inductionHypothesis.andThen fun more =>
      .succeed (changed || more)

theorem oblivious_iterate (passes : List Pass) (limit : Nat) :
    Oblivious (iterate passes limit) := by
  induction limit with
  | zero => exact .succeed (0, false)
  | succ remaining inductionHypothesis =>
    refine (oblivious_runPasses passes).andThen fun changed => ?_
    cases changed with
    | false => exact .succeed (1, true)
    | true => exact inductionHypothesis.andThen fun (iterations, converged) =>
        .succeed (iterations + 1, converged)

end Workspace

end BitGraph
