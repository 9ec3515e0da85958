/-
This file proves that simplifications that share a sink are independent of each other.
However they take turns, each of them comes to the outcome that it comes to on its own,
with an empty sink, and whether another one fails does not matter. What reaches the sink
is what all of them report on their own, in some order; since each remembers for itself
which operations it has warned about, no warning is lost where several graphs have
operations of one number.
-/

import BitGraph.Proofs.Lists
import BitGraph.Proofs.Simplify.Discretion

namespace BitGraph

variable {plan : Plan}

/-! ### Simplifying a graph on its own -/

namespace Graph

/-- The result of simplifying a graph on its own, and the graph that is left behind. -/
def alone (graph : Graph) (plan : Plan) : Except GraphError RunSummary × Graph :=
  let attempt := graph.simplify plan {}
  (attempt.result, attempt.state.graph)

/-- What simplifying a graph on its own reports. -/
def reports (graph : Graph) (plan : Plan) : List Diagnostic :=
  (graph.simplify plan {}).state.session.sink.diagnostics

end Graph

/-- Whether a diagnostic warns that an operation of this number divides by a constant zero. -/
def Diagnostic.warnsAbout (diagnostic : Diagnostic) (id : Nat) : Bool :=
  diagnostic.code = .divisionByZero ∧ diagnostic.op = some id

/-- What has come of simplifying graphs is what comes of simplifying each of them on its own. -/
structure SimplifiedApart (plan : Plan) (graphs : List Graph) (before : Sink)
    (outcomes : List (Except GraphError RunSummary × Graph)) (after : Sink) : Prop where
  /-- Each graph has the outcome that it has on its own. -/
  outcomes : outcomes = graphs.map (·.alone plan)
  /-- The sink has taken in what is reported about the graphs on their own, in some order. -/
  reports : ∃ added, after = before.emitAll added ∧ added.Perm (graphs.flatMap (·.reports plan))
  /-- No graph is left without a warning because of another one. -/
  warnings : ∀ id, after.diagnostics.countP (·.warnsAbout id) =
    before.diagnostics.countP (·.warnsAbout id) +
      (graphs.map fun graph => (graph.reports plan).countP (·.warnsAbout id)).sum

/-! ### The turns of one simplification -/

namespace Runner

variable {runner : Runner} {graph : Graph}

/-- What becomes of a simplification in one turn. -/
def next (runner : Runner) : Runner :=
  (runner.turn {}).1

/-- What a simplification reports in one turn. -/
def report (runner : Runner) : List Diagnostic :=
  (runner.turn {}).2.diagnostics

/-- What a simplification reports in several turns. -/
def reports (runner : Runner) : Nat → List Diagnostic
  | 0 => []
  | turns + 1 => runner.report ++ runner.next.reports turns

/-- What a turn does is the same for every sink, and it reports at most one thing. -/
theorem turn_cases (discreet : runner.routine.Discreet) :
    ∃ later : Runner, ∃ report : Option Diagnostic, later.routine.Discreet ∧
      ∀ sink, runner.turn sink = (later, sink.emitAll report.toList) := by
  obtain ⟨work, routine⟩ := runner
  cases discreet with
  | ended result => exact ⟨⟨work, .ended result⟩, none, .ended result, fun _ => rfl⟩
  | step moves same later =>
    obtain ⟨after, report, moved⟩ := moves work
    refine ⟨⟨after.onto {}, _⟩, report, later work, fun sink => ?_⟩
    simp only [turn, moved, same, Workspace.onto_onto, Workspace.sink_onto]

theorem turn_eq (discreet : runner.routine.Discreet) (sink : Sink) :
    runner.turn sink = (runner.next, sink.emitAll runner.report) := by
  obtain ⟨later, report, _, taken⟩ := turn_cases discreet
  have listed : (Sink.emitAll {} report.toList).diagnostics = report.toList :=
    Sink.emitAll_diagnostics {} _
  rw [next, Runner.report, taken, taken, listed]

theorem discreet_next (discreet : runner.routine.Discreet) : runner.next.routine.Discreet := by
  obtain ⟨later, _, still, taken⟩ := turn_cases discreet
  rwa [next, taken]

/-- Taking all steps that are left is taking a turn first. -/
theorem run_next (discreet : runner.routine.Discreet) (sink : Sink) :
    runner.routine.run (runner.work.onto sink) =
      runner.next.routine.run (runner.next.work.onto (sink.emitAll runner.report)) := by
  have taken := turn_eq discreet sink
  obtain ⟨work, routine⟩ := runner
  cases routine with
  | ended result =>
    obtain ⟨same, kept⟩ := Prod.mk.inj taken
    rw [← same, ← kept]
  | step move next =>
    obtain ⟨same, kept⟩ := Prod.mk.inj taken
    rw [← same, ← kept]
    rfl

theorem run_turns (discreet : runner.routine.Discreet) (turns : Nat) (sink : Sink) :
    runner.routine.run (runner.work.onto sink) =
      (next^[turns] runner).routine.run
        ((next^[turns] runner).work.onto (sink.emitAll (runner.reports turns))) := by
  induction turns generalizing runner sink with
  | zero => rfl
  | succ turns inductionHypothesis =>
    rw [run_next discreet, inductionHypothesis (discreet_next discreet), ← Sink.emitAll_append]
    rfl

/-! ### Coming to an end -/

theorem next_of_ended {result : Except GraphError RunSummary}
    (ended : runner.routine = .ended result) : runner.next = runner := by
  rw [next, turn, ended]

/-- A simplification that is given enough turns comes to an end. -/
theorem exists_ended (runner : Runner) :
    ∃ turns result, (next^[turns] runner).routine = .ended result := by
  obtain ⟨work, routine⟩ := runner
  induction routine generalizing work with
  | ended result => exact ⟨0, result, rfl⟩
  | step move next inductionHypothesis =>
    obtain ⟨turns, result, ended⟩ :=
      inductionHypothesis (work.onto {}) ((move (work.onto {})).onto {})
    exact ⟨turns + 1, result, ended⟩

/-- A simplification that has come to an end has done what simplifying the graph does. -/
theorem simplify_of_ended {turns : Nat} {result : Except GraphError RunSummary}
    (ended : (next^[turns] (start plan graph)).routine = .ended result) (sink : Sink) :
    graph.simplify plan sink = ⟨result, (next^[turns] (start plan graph)).work.onto
      (sink.emitAll ((start plan graph).reports turns))⟩ := by
  have discreet : (start plan graph).routine.Discreet := graph.discreet_routine plan
  have taken := run_turns discreet turns sink
  rw [ended] at taken
  exact (graph.run_routine plan sink).symm.trans taken

theorem outcome?_of_ended {result : Except GraphError RunSummary}
    (ended : runner.routine = .ended result) :
    runner.outcome? = some (result, runner.work.graph) := by
  rw [outcome?, ended]

/-- The outcome of a simplification, however many turns it took, is the outcome of simplifying the
graph on its own, and so is what was reported. -/
theorem alone_of_outcome {turns : Nat} {outcome : Except GraphError RunSummary × Graph}
    (found : (next^[turns] (start plan graph)).outcome? = some outcome) :
    outcome = graph.alone plan ∧ (start plan graph).reports turns = graph.reports plan := by
  cases routine : (next^[turns] (start plan graph)).routine with
  | step move next =>
    rw [outcome?, routine] at found
    cases found
  | ended result =>
    rw [outcome?_of_ended routine] at found
    cases found
    have simplified := simplify_of_ended routine {}
    refine ⟨?_, ?_⟩
    · rw [Graph.alone, simplified]
      rfl
    · rw [Graph.reports, simplified, Workspace.sink_onto]
      exact (Sink.emitAll_diagnostics {} _).symm

/-- From some turn on, a simplification has its outcome. -/
theorem exists_turns (plan : Plan) (graph : Graph) :
    ∃ turns, ∀ more, turns ≤ more →
      (next^[more] (start plan graph)).outcome? = some (graph.alone plan) := by
  obtain ⟨turns, result, ended⟩ := exists_ended (start plan graph)
  refine ⟨turns, fun more enough => ?_⟩
  have same : next^[more] (start plan graph) = next^[turns] (start plan graph) := by
    rw [← Nat.sub_add_cancel enough, Function.iterate_add_apply]
    exact Function.iterate_fixed (next_of_ended ended) _
  rw [same, outcome?_of_ended ended]
  exact congrArg some (alone_of_outcome (outcome?_of_ended ended)).1

end Runner

/-! ### The turns of a crew -/

namespace Crew

variable {crew : Crew}

/-- A turn changes one simplification, and hands its report to the sink. -/
theorem turn_eq (discreet : ∀ runner ∈ crew.runners, runner.routine.Discreet) (index : Nat) :
    crew.turn index = ⟨crew.runners.modify index Runner.next,
      crew.sink.emitAll ((crew.runners[index]?.map Runner.report).getD [])⟩ := by
  rw [turn, List.modify_eq_set_getElem?]
  cases there : crew.runners[index]? with
  | none => rfl
  | some runner =>
    have taken := Runner.turn_eq (discreet _ (List.mem_of_getElem? there)) crew.sink
    simp only [taken]
    rfl

theorem discreet_turn (discreet : ∀ runner ∈ crew.runners, runner.routine.Discreet)
    (index : Nat) : ∀ runner ∈ (crew.turn index).runners, runner.routine.Discreet := by
  intro runner member
  rw [turn_eq discreet] at member
  obtain ⟨place, there⟩ := List.mem_iff_getElem?.mp member
  rw [List.getElem?_modify] at there
  obtain ⟨before, found, rfl⟩ := Option.map_eq_some_iff.mp there
  have still := discreet before (List.mem_of_getElem? found)
  split
  · exact Runner.discreet_next still
  · exact still

/-- What all simplifications report in several turns each, if one of them takes a turn more. -/
theorem flatten_reports_perm (runners : List Runner) (index : Nat) (turns : Nat → Nat) :
    (runners.mapIdx fun place runner =>
        runner.reports (turns place + if index = place then 1 else 0)).flatten.Perm
      ((runners[index]?.map Runner.report).getD [] ++
        ((runners.modify index Runner.next).mapIdx fun place runner =>
          runner.reports (turns place)).flatten) := by
  induction runners generalizing index turns with
  | nil =>
    rw [List.modify_nil, List.getElem?_nil]
    exact .refl _
  | cons runner rest inductionHypothesis =>
    cases index with
    | zero =>
      simp only [List.mapIdx_cons, List.flatten_cons, List.modify_zero_cons, if_pos]
      rw [Runner.reports, List.append_assoc]
      exact .refl _
    | succ index =>
      have later := inductionHypothesis index fun place => turns (place + 1)
      simp only [List.mapIdx_cons, List.flatten_cons, List.modify_succ_cons,
        List.getElem?_cons_succ, Nat.add_right_cancel_iff]
      rw [if_neg (Nat.succ_ne_zero index), Nat.add_zero]
      exact (later.append_left _).trans (List.perm_append_comm_assoc _ _ _)

theorem mapIdx_next (runners : List Runner) (index : Nat) (turns : Nat → Nat) :
    (runners.mapIdx fun place runner =>
        Runner.next^[turns place + if index = place then 1 else 0] runner) =
      (runners.modify index Runner.next).mapIdx fun place runner =>
        Runner.next^[turns place] runner := by
  refine List.ext_getElem? fun place => ?_
  rw [List.getElem?_mapIdx, List.getElem?_mapIdx, List.getElem?_modify, Option.map_eq_map,
    Option.map_map]
  refine congrArg (Option.map · _) (funext fun runner => ?_)
  by_cases here : index = place
  · rw [if_pos here]
    simp only [Function.comp_apply, if_pos here]
    rfl
  · rw [if_neg here]
    simp only [Function.comp_apply, if_neg here]
    rfl

/-- Whatever the schedule, each simplification goes as far as it goes on its own in as many turns,
and the sink takes in what it reports in them. -/
theorem turns_eq (discreet : ∀ runner ∈ crew.runners, runner.routine.Discreet)
    (schedule : List Nat) :
    ((crew.turns schedule).runners = crew.runners.mapIdx fun place runner =>
      Runner.next^[schedule.count place] runner) ∧
    ∃ added, (crew.turns schedule).sink = crew.sink.emitAll added ∧
      added.Perm (crew.runners.mapIdx fun place runner =>
        runner.reports (schedule.count place)).flatten := by
  induction schedule generalizing crew with
  | nil =>
    refine ⟨(mapIdx_item crew.runners).symm, [], rfl, ?_⟩
    have nothing : (crew.runners.mapIdx fun _ runner => runner.reports 0).flatten = [] := by
      refine List.flatten_eq_nil_iff.mpr fun reports member => ?_
      obtain ⟨_, _, rfl⟩ := List.mem_mapIdx.mp member
      rfl
    exact nothing ▸ .refl _
  | cons index rest inductionHypothesis =>
    -- The rest of the schedule is one for the crew after the first turn, in which one
    -- simplification has gone on by a step and the sink holds its report.
    obtain ⟨runners, added, sink, perm⟩ := inductionHypothesis (discreet_turn discreet index)
    have changed := congrArg Crew.runners (turn_eq discreet index)
    have handed := congrArg Crew.sink (turn_eq discreet index)
    rw [changed] at runners perm
    rw [handed, ← Sink.emitAll_append] at sink
    simp only [List.count_cons, beq_iff_eq]
    refine ⟨?_, _, sink, ?_⟩
    · rw [mapIdx_next]
      exact runners
    · exact (perm.append_left _).trans (flatten_reports_perm _ _ _).symm

/-! ### Several graphs -/

section Graphs

variable {graphs : List Graph} {sink : Sink}

theorem discreet_start (plan : Plan) (graphs : List Graph) (sink : Sink) :
    ∀ runner ∈ (start plan graphs sink).runners, runner.routine.Discreet := by
  intro runner member
  obtain ⟨graph, _, rfl⟩ := List.mem_map.mp member
  exact graph.discreet_routine plan

/-- Each simplification has gone on alone, as often as the schedule says. -/
theorem getElem?_turns (schedule : List Nat) (index : Nat) :
    ((start plan graphs sink).turns schedule).runners[index]? = graphs[index]?.map fun graph =>
      Runner.next^[schedule.count index] (Runner.start plan graph) := by
  rw [(turns_eq (discreet_start plan graphs sink) schedule).1, List.getElem?_mapIdx, start,
    List.getElem?_map, Option.map_map]
  rfl

/-- Where all simplifications have come to an end, each has the outcome that it has on its own. -/
theorem outcome_of_outcomes {schedule : List Nat}
    {outcomes : List (Except GraphError RunSummary × Graph)}
    (finished : ((start plan graphs sink).turns schedule).outcomes? = some outcomes) (index : Nat) :
    outcomes[index]? = graphs[index]?.map (·.alone plan) ∧
      ∀ graph, graphs[index]? = some graph →
        (Runner.start plan graph).reports (schedule.count index) = graph.reports plan := by
  have each := (mapM_eq_some_iff _ _ _).mp finished
  have place : ((start plan graphs sink).turns schedule).runners[index]? = _ :=
    getElem?_turns schedule index
  cases there : graphs[index]? with
  | none =>
    rw [there, Option.map_none, List.getElem?_eq_none_iff, each.length_eq] at place
    exact ⟨List.getElem?_eq_none place, nofun⟩
  | some graph =>
    rw [there, Option.map_some] at place
    obtain ⟨below, runner⟩ := List.getElem?_eq_some_iff.mp place
    have within_ : index < outcomes.length := each.length_eq ▸ below
    have found := each.get below within_
    rw [List.get_eq_getElem, runner] at found
    obtain ⟨outcome, reports⟩ := Runner.alone_of_outcome found
    refine ⟨?_, fun other same => ?_⟩
    · rw [List.getElem?_eq_getElem within_, Option.map_some, ← outcome]
      rfl
    · cases same
      exact reports

/-- Where all simplifications have come to an end, the graphs have been simplified apart. -/
theorem apart_of_outcomes {schedule : List Nat}
    {outcomes : List (Except GraphError RunSummary × Graph)}
    (finished : ((start plan graphs sink).turns schedule).outcomes? = some outcomes) :
    SimplifiedApart plan graphs sink outcomes ((start plan graphs sink).turns schedule).sink := by
  obtain ⟨_, added, emitted, perm⟩ := turns_eq (discreet_start plan graphs sink) schedule
  have reports : ((start plan graphs sink).runners.mapIdx fun place runner =>
      runner.reports (schedule.count place)) = graphs.map (·.reports plan) := by
    refine List.ext_getElem? fun index => ?_
    rw [List.getElem?_mapIdx, start, List.getElem?_map, List.getElem?_map, Option.map_map]
    cases there : graphs[index]? with
    | none => rfl
    | some graph => exact congrArg some ((outcome_of_outcomes finished index).2 graph there)
  have all : added.Perm (graphs.flatMap (·.reports plan)) := by rwa [reports] at perm
  refine ⟨List.ext_getElem? fun index => ?_, ⟨added, emitted, all⟩, fun id => ?_⟩
  · rw [(outcome_of_outcomes finished index).1, List.getElem?_map]
  · rw [emitted, Sink.emitAll_diagnostics, List.countP_append, all.countP_eq, List.countP_flatMap]
    rfl

/-- A simplification that is given enough turns comes to its outcome, whatever the others do. -/
theorem exists_enough_turns (plan : Plan) (graphs : List Graph) (sink : Sink) :
    ∃ turns, ∀ schedule index graph, graphs[index]? = some graph →
      turns ≤ schedule.count index →
        ((Crew.start plan graphs sink).turns schedule).runners[index]?.bind Runner.outcome? =
          some (graph.alone plan) := by
  choose turns enough using Runner.exists_turns plan
  refine ⟨(graphs.map turns).sum, fun schedule index graph there given => ?_⟩
  have few : turns graph ≤ (graphs.map turns).sum :=
    List.le_sum_of_mem (List.mem_map_of_mem (List.mem_of_getElem? there))
  rw [getElem?_turns, there]
  exact enough graph _ (few.trans given)

end Graphs

/-! ### One after the other -/

theorem turns_append (crew : Crew) (first second : List Nat) :
    crew.turns (first ++ second) = (crew.turns first).turns second :=
  List.foldl_append

/-- The first simplification can be given several turns before the others have any. -/
theorem turns_replicate {runner : Runner} (discreet : runner.routine.Discreet)
    (others : List Runner) (sink : Sink) (count : Nat) :
    turns ⟨runner :: others, sink⟩ (List.replicate count 0) =
      ⟨Runner.next^[count] runner :: others, sink.emitAll (runner.reports count)⟩ := by
  induction count generalizing runner sink with
  | zero => rfl
  | succ count inductionHypothesis =>
    have first : turn ⟨runner :: others, sink⟩ 0 =
        ⟨runner.next :: others, sink.emitAll runner.report⟩ := by
      simp only [turn, List.getElem?_cons_zero, Runner.turn_eq discreet, List.set_cons_zero]
    have later := inductionHypothesis (Runner.discreet_next discreet) (sink.emitAll runner.report)
    rw [← first, ← Sink.emitAll_append] at later
    exact later

/-- Turns of the others leave the first simplification alone. -/
theorem turns_succ (runner : Runner) (others : List Runner) (sink : Sink) (schedule : List Nat) :
    turns ⟨runner :: others, sink⟩ (schedule.map (· + 1)) =
      ⟨runner :: (turns ⟨others, sink⟩ schedule).runners,
        (turns ⟨others, sink⟩ schedule).sink⟩ := by
  induction schedule generalizing others sink with
  | nil => rfl
  | cons index rest inductionHypothesis =>
    have first : turn ⟨runner :: others, sink⟩ (index + 1) =
        ⟨runner :: (turn ⟨others, sink⟩ index).runners, (turn ⟨others, sink⟩ index).sink⟩ := by
      simp only [turn, List.getElem?_cons_succ]
      cases others[index]? <;> rfl
    have later := inductionHypothesis (turn ⟨others, sink⟩ index).runners
      (turn ⟨others, sink⟩ index).sink
    rw [← first] at later
    exact later

/-- Simplifying one graph after the other is one way to take turns. -/
theorem exists_schedule (plan : Plan) (graphs : List Graph) (sink : Sink) :
    ∃ schedule, ((start plan graphs sink).turns schedule).outcomes? =
        some (simplifyAll plan graphs sink).1 ∧
      ((start plan graphs sink).turns schedule).sink = (simplifyAll plan graphs sink).2 := by
  induction graphs generalizing sink with
  | nil => exact ⟨[], rfl, rfl⟩
  | cons graph rest inductionHypothesis =>
    -- First come all turns of the first graph, then the turns of the others, whose places are one
    -- further on.
    obtain ⟨count, result, ended⟩ := Runner.exists_ended (Runner.start plan graph)
    have simplified := Runner.simplify_of_ended ended sink
    obtain ⟨schedule, outcomes, final⟩ :=
      inductionHypothesis (sink.emitAll ((Runner.start plan graph).reports count))
    have taken : (start plan (graph :: rest) sink).turns
        (List.replicate count 0 ++ schedule.map (· + 1)) =
          turns ⟨Runner.next^[count] (Runner.start plan graph) :: rest.map (Runner.start plan),
            sink.emitAll ((Runner.start plan graph).reports count)⟩ (schedule.map (· + 1)) := by
      rw [turns_append, ← turns_replicate (graph.discreet_routine plan)]
      rfl
    refine ⟨List.replicate count 0 ++ schedule.map (· + 1), ?_, ?_⟩
    · rw [taken, turns_succ, simplifyAll, simplified]
      simp only [outcomes?, List.mapM_cons, Runner.outcome?_of_ended ended]
      simp only [outcomes?, start] at outcomes
      simp only [outcomes]
      rfl
    · rw [taken, turns_succ, simplifyAll, simplified]
      exact final

end Crew

/-- Several graphs that are simplified with one sink are simplified apart from each other. One after
the other is one way to let the simplifications take turns; each one that is given enough turns
comes to the outcome of its graph, whatever becomes of the others; and once all of them have come
to an end, the graphs have been simplified apart, whoever's turn it was when. -/
theorem simplifyAll_independent (plan : Plan) (graphs : List Graph) (sink : Sink) :
    SimplifiedApart plan graphs sink (simplifyAll plan graphs sink).1
      (simplifyAll plan graphs sink).2 ∧
    (∃ schedule, ((Crew.start plan graphs sink).turns schedule).outcomes? =
        some (simplifyAll plan graphs sink).1 ∧
      ((Crew.start plan graphs sink).turns schedule).sink = (simplifyAll plan graphs sink).2) ∧
    (∃ turns, ∀ schedule index graph, graphs[index]? = some graph →
      turns ≤ schedule.count index →
        ((Crew.start plan graphs sink).turns schedule).runners[index]?.bind Runner.outcome? =
          some (graph.alone plan)) ∧
    ∀ schedule outcomes,
      ((Crew.start plan graphs sink).turns schedule).outcomes? = some outcomes →
        SimplifiedApart plan graphs sink outcomes
          ((Crew.start plan graphs sink).turns schedule).sink := by
  obtain ⟨schedule, finished, final⟩ := Crew.exists_schedule plan graphs sink
  refine ⟨?_, ⟨schedule, finished, final⟩, Crew.exists_enough_turns plan graphs sink,
    fun schedule outcomes finished => Crew.apart_of_outcomes finished⟩
  rw [← final]
  exact Crew.apart_of_outcomes finished

end BitGraph
