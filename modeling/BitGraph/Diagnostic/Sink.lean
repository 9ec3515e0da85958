/-
This file defines sinks, which collect diagnostics in the order in which they
are emitted. A sink also counts the errors it ever took in; that count stays
when the diagnostics are taken out.
-/

import BitGraph.Diagnostic.Basic

namespace BitGraph

/-- Collected diagnostics. -/
structure Sink where
  /-- The diagnostics that were emitted and not taken out yet, in order. -/
  diagnostics : List Diagnostic := []
  /-- How many errors were ever emitted. -/
  errorCount : Nat := 0
  deriving DecidableEq, Repr

namespace Sink

/-- Take in a diagnostic. -/
def emit (sink : Sink) (diagnostic : Diagnostic) : Sink where
  diagnostics := sink.diagnostics ++ [diagnostic]
  errorCount := sink.errorCount + if diagnostic.severity = .error then 1 else 0

/-- Take in several diagnostics in order. -/
def emitAll (sink : Sink) (diagnostics : List Diagnostic) : Sink :=
  diagnostics.foldl emit sink

/-- Whether an error was ever emitted. -/
def hasErrors (sink : Sink) : Bool :=
  0 < sink.errorCount

/-- How many diagnostics of a severity are held. -/
def count (sink : Sink) (severity : Severity) : Nat :=
  sink.diagnostics.countP (·.severity = severity)

/-- Whether a diagnostic with this code is held. -/
def containsCode (sink : Sink) (code : Code) : Bool :=
  sink.diagnostics.any (·.code = code)

/-- Take all diagnostics out. The count of errors stays. -/
def takeAll (sink : Sink) : List Diagnostic × Sink :=
  (sink.diagnostics, { sink with diagnostics := [] })

theorem emitAll_append (sink : Sink) (first second : List Diagnostic) :
    sink.emitAll (first ++ second) = (sink.emitAll first).emitAll second :=
  List.foldl_append

theorem emitAll_diagnostics (sink : Sink) (diagnostics : List Diagnostic) :
    (sink.emitAll diagnostics).diagnostics = sink.diagnostics ++ diagnostics := by
  induction diagnostics generalizing sink with
  | nil => simp [emitAll]
  | cons diagnostic rest inductionHypothesis =>
    have step : sink.emitAll (diagnostic :: rest) = (sink.emit diagnostic).emitAll rest := rfl
    rw [step, inductionHypothesis]
    simp [emit]

theorem emitAll_errorCount (sink : Sink) (diagnostics : List Diagnostic) :
    (sink.emitAll diagnostics).errorCount =
      sink.errorCount + diagnostics.countP (·.severity = .error) := by
  induction diagnostics generalizing sink with
  | nil => simp [emitAll]
  | cons diagnostic rest inductionHypothesis =>
    have step : sink.emitAll (diagnostic :: rest) = (sink.emit diagnostic).emitAll rest := rfl
    rw [step, inductionHypothesis, List.countP_cons]
    simp only [emit, decide_eq_true_eq]
    omega

/-- Diagnostics that are no errors leave the count of errors as it is. -/
theorem emitAll_of_harmless (sink : Sink) {diagnostics : List Diagnostic}
    (harmless : ∀ diagnostic ∈ diagnostics, diagnostic.severity ≠ .error) :
    sink.emitAll diagnostics = ⟨sink.diagnostics ++ diagnostics, sink.errorCount⟩ := by
  have none_counted : diagnostics.countP (·.severity = .error) = 0 :=
    List.countP_eq_zero.mpr (by simpa using harmless)
  calc sink.emitAll diagnostics
      = ⟨(sink.emitAll diagnostics).diagnostics, (sink.emitAll diagnostics).errorCount⟩ := rfl
    _ = ⟨sink.diagnostics ++ diagnostics, sink.errorCount⟩ := by
      rw [emitAll_diagnostics, emitAll_errorCount, none_counted, Nat.add_zero]

end Sink

end BitGraph
