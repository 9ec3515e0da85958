/-
This file proves that diagnostics are written on lines without loss: each takes exactly one
line, and reading the lines in order gives the diagnostics back, whatever their texts hold.
The text of a form is plain, so that the only ends of lines are the ones behind the forms;
the text of a form determines it, and the form of a diagnostic determines the diagnostic.
-/

import BitGraph.Proofs.Json.Forms
import BitGraph.Proofs.Json.RoundTrip

namespace BitGraph.Diagnostic

/-! ### Lines -/

theorem splitLines_append_end {line : List Char} (inside : '\n' ∉ line) (rest : List Char) :
    splitLines (line ++ '\n' :: rest) = line :: splitLines rest := by
  induction line with
  | nil => rfl
  | cons character others inductionHypothesis =>
    have other : '\n' ≠ character := List.ne_of_not_mem_cons inside
    have behind : '\n' ∉ others := List.not_mem_of_not_mem_cons inside
    rw [List.cons_append, splitLines.eq_3 _ _ (Ne.symm other), inductionHypothesis behind]

/-- Lines that are each ended once are found again. -/
theorem splitLines_flatMap {lines : List (List Char)} (inside : ∀ line ∈ lines, '\n' ∉ line) :
    splitLines (lines.flatMap (· ++ ['\n'])) = lines := by
  induction lines with
  | nil => rfl
  | cons line others inductionHypothesis =>
    obtain ⟨here, there⟩ := List.forall_mem_cons.mp inside
    rw [List.flatMap_cons, List.append_assoc, List.singleton_append, splitLines_append_end here,
      inductionHypothesis there]

theorem count_flatMap_end {lines : List (List Char)} (inside : ∀ line ∈ lines, '\n' ∉ line) :
    (lines.flatMap (· ++ ['\n'])).count '\n' = lines.length := by
  induction lines with
  | nil => rfl
  | cons line others inductionHypothesis =>
    obtain ⟨here, there⟩ := List.forall_mem_cons.mp inside
    rw [List.flatMap_cons, List.count_append, List.count_append, List.count_eq_zero.mpr here,
      List.count_singleton_self, inductionHypothesis there, List.length_cons]
    omega

/-! ### Diagnostics on lines -/

/-- The text of a diagnostic, without the end of its line. -/
def body (diagnostic : Diagnostic) : List Char :=
  diagnostic.encode.text

theorem toList_lines (diagnostics : List Diagnostic) :
    (lines diagnostics).toList = (diagnostics.map body).flatMap (· ++ ['\n']) := by
  rw [lines, String.toList_join, List.flatMap_map, List.flatMap_map]
  refine List.flatMap_congr fun diagnostic _ => ?_
  rw [line, String.toList_append, Json.render, String.toList_ofList]
  rfl

theorem not_mem_body (diagnostic : Diagnostic) : '\n' ∉ diagnostic.body :=
  fun member => absurd (Json.plain_text _ _ member) (by decide)

theorem forall_not_mem_body (diagnostics : List Diagnostic) :
    ∀ line ∈ diagnostics.map body, '\n' ∉ line :=
  List.forall_mem_map.mpr fun diagnostic _ => diagnostic.not_mem_body

theorem splitLines_lines (diagnostics : List Diagnostic) :
    splitLines (lines diagnostics).toList = diagnostics.map body := by
  rw [toList_lines, splitLines_flatMap (forall_not_mem_body diagnostics)]

theorem ofLine?_body {diagnostic : Diagnostic} (fits : diagnostic.Fits) :
    ofLine? diagnostic.body = some diagnostic := by
  have decoded : decode diagnostic.encode = .ok diagnostic :=
    faithful_form.decode_encode diagnostic fits
  rw [ofLine?, body, Json.parse?_text, Option.bind_some, decoded]
  rfl

theorem ofLines?_lines {diagnostics : List Diagnostic}
    (fit : ∀ diagnostic ∈ diagnostics, diagnostic.Fits) :
    ofLines? (lines diagnostics) = some diagnostics := by
  rw [ofLines?, splitLines_lines, mapM_eq_some_iff, List.forall₂_map_left_iff, List.forall₂_same]
  exact fun diagnostic member => ofLine?_body (fit diagnostic member)

/-- Diagnostics are written on lines without loss: there are as many ends of lines as diagnostics,
each diagnostic stands on one line, which is the text of its form, in which no character lies below
the blank and from which it is read back, and no other diagnostics have the same lines. -/
theorem lines_lossless (diagnostics : List Diagnostic)
    (fit : ∀ diagnostic ∈ diagnostics, diagnostic.Fits) :
    (lines diagnostics).toList.count '\n' = diagnostics.length ∧
      (splitLines (lines diagnostics).toList).flatMap (· ++ ['\n']) =
        (lines diagnostics).toList ∧
      List.Forall₂ (fun line diagnostic => line = diagnostic.encode.text ∧
          (∀ character ∈ line, Json.Plain character) ∧ ofLine? line = some diagnostic)
        (splitLines (lines diagnostics).toList) diagnostics ∧
      ofLines? (lines diagnostics) = some diagnostics ∧
      ∀ others, (∀ diagnostic ∈ others, diagnostic.Fits) → lines others = lines diagnostics →
        others = diagnostics := by
  refine ⟨?_, ?_, ?_, ofLines?_lines fit, fun others fitOthers same => ?_⟩
  · rw [toList_lines, count_flatMap_end (forall_not_mem_body diagnostics), List.length_map]
  · rw [splitLines_lines, toList_lines]
  · rw [splitLines_lines, List.forall₂_map_left_iff, List.forall₂_same]
    exact fun diagnostic member =>
      ⟨rfl, Json.plain_text _, ofLine?_body (fit diagnostic member)⟩
  · have read := ofLines?_lines fitOthers
    rw [same, ofLines?_lines fit] at read
    exact (Option.some.inj read).symm

/-- Marks, a backslash, ends of lines, control characters and characters of any plane in the texts,
with an operation and without one. -/
def samples : List Diagnostic :=
  [⟨.warning, ⟨.warning, 101⟩, "\"quoted\" \\ and\nmore\r\x00\x1f", some 0,
      ["", "\n\n", "\u2028é"], ["😀\t"]⟩,
    ⟨.note, ⟨.change, 65535⟩, "\n", none, [], []⟩,
    ⟨.error, ⟨.error, 0⟩, "null", some 4294967295, ["]"], ["\\n"]⟩]

theorem lines_lossless_samples :
    (∀ diagnostic ∈ samples, diagnostic.Fits) ∧
      (lines samples).toList.count '\n' = 3 ∧ ofLines? (lines samples) = some samples := by
  have fit : ∀ diagnostic ∈ samples, diagnostic.Fits := by
    intro diagnostic member
    fin_cases member
    · exact ⟨by decide, by rintro id ⟨⟩; decide⟩
    · exact ⟨by decide, by rintro id ⟨⟩⟩
    · exact ⟨by decide, by rintro id ⟨⟩; decide⟩
  obtain ⟨ends, _, _, read, _⟩ := lines_lossless samples fit
  exact ⟨fit, ends, read⟩

end BitGraph.Diagnostic
