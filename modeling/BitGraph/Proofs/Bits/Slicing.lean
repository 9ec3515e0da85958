/-
This file proves that cutting a pattern into consecutive slices and joining the slices
gives the pattern back, and that each part of a joined pattern is found again where it
was put. Both go along the joining, which takes the parts from the most significant one
down: what has been joined is always one slice of the pattern, and it moves up by the
width of each part that comes below it.
-/

import BitGraph.Proofs.Bits.Identities
import BitGraph.Proofs.Operation.Evaluation

namespace BitGraph

/-- The slices of these widths that lie next to each other, the most significant one first and the
last one at the bottom: the lowest bit and the width of each. -/
def consecutive : List Nat → List (Nat × Nat)
  | [] => []
  | width :: rest => (rest.sum, width) :: consecutive rest

theorem length_consecutive (widths : List Nat) :
    (consecutive widths).length = widths.length := by
  induction widths with
  | nil => rfl
  | cons width rest inductionHypothesis =>
    exact congrArg Nat.succ inductionHypothesis

/-- Consecutive slices lie inside what they make up. -/
theorem inside_of_mem_consecutive {widths : List Nat} (positive : ∀ width ∈ widths, 0 < width)
    {slice : Nat × Nat} (member : slice ∈ consecutive widths) :
    0 < slice.2 ∧ slice.1 + slice.2 ≤ widths.sum := by
  induction widths with
  | nil => cases member
  | cons width rest inductionHypothesis =>
    rw [List.forall_mem_cons] at positive
    rw [List.sum_cons]
    rcases List.mem_cons.mp member with rfl | later
    · exact ⟨positive.1, Nat.le_of_eq (Nat.add_comm _ _)⟩
    · obtain ⟨some, inside⟩ := inductionHypothesis positive.2 later
      exact ⟨some, inside.trans (Nat.le_add_left _ _)⟩

namespace Bits

/-! ### Two neighbours -/

theorem magnitude_concat (high low : Bits) :
    (high.concat low).magnitude = high.magnitude <<< low.width ||| low.magnitude :=
  BitVec.toNat_append high.value low.value

/-- Two neighbouring slices are joined to one. -/
theorem extract_adjacent {bits high low : Bits} {lowest width taken : Nat}
    (above : bits.extract (lowest + width) taken = .ok high)
    (below : bits.extract lowest width = .ok low) :
    bits.extract lowest (taken + width) = .ok (high.concat low) := by
  rw [extract_eq_ok_iff] at above below ⊢
  obtain ⟨inside, rfl, highMagnitude⟩ := above
  obtain ⟨_, rfl, lowMagnitude⟩ := below
  refine ⟨by omega, rfl, ?_⟩
  rw [magnitude_concat, highMagnitude, lowMagnitude]
  refine Nat.eq_of_testBit_eq fun index => ?_
  simp only [Nat.testBit_or, Nat.testBit_shiftLeft, Nat.testBit_mod_two_pow,
    Nat.testBit_shiftRight]
  by_cases bottom : index < low.width
  · simp [bottom, Nat.not_le.mpr bottom, Nat.lt_add_left high.width bottom]
  · have top : low.width ≤ index := Nat.le_of_not_lt bottom
    have moved : lowest + low.width + (index - low.width) = lowest + index := by omega
    have same : index - low.width < high.width ↔ index < high.width + low.width := by omega
    simp [bottom, top, moved, same]

/-- What lies below a pattern is found at the bottom. -/
theorem extract_concat_low (high low : Bits) : (high.concat low).extract 0 low.width = .ok low := by
  have below : low.magnitude < 2 ^ low.width := low.value.isLt
  rw [extract_eq_ok_iff, magnitude_concat]
  refine ⟨(Nat.zero_add _).trans_le (Nat.le_add_left _ _), rfl, ?_⟩
  rw [Nat.shiftRight_zero, ← Nat.shiftLeft_add_eq_or_of_lt below, Nat.shiftLeft_eq,
    Nat.mul_add_mod_self_right, Nat.mod_eq_of_lt below]

/-- A slice of a pattern moves up by the width of what comes below. -/
theorem extract_concat_high {high slice : Bits} {lowest width : Nat}
    (found : high.extract lowest width = .ok slice) (low : Bits) :
    (high.concat low).extract (low.width + lowest) width = .ok slice := by
  rw [extract_eq_ok_iff] at found ⊢
  obtain ⟨inside, same, magnitude⟩ := found
  refine ⟨?_, same, ?_⟩
  · show low.width + lowest + width ≤ high.width + low.width
    omega
  · rw [magnitude, magnitude_concat, Nat.shiftRight_add, Nat.shiftRight_or_distrib,
      Nat.shiftLeft_shiftRight, Nat.shiftRight_eq_zero low.magnitude low.width low.value.isLt,
      Nat.or_zero]

/-! ### Many parts -/

/-- The consecutive slices of these widths are these pieces. -/
def CutsInto (bits : Bits) (widths : List Nat) (pieces : List Bits) : Prop :=
  List.Forall₂ (fun slice piece => bits.extract slice.1 slice.2 = .ok piece) (consecutive widths)
    pieces

theorem CutsInto.unique {bits : Bits} {widths : List Nat} {pieces others : List Bits}
    (cut : bits.CutsInto widths pieces) (again : bits.CutsInto widths others) :
    pieces = others := by
  rw [← List.forall₂_eq_eq_eq]
  exact forall₂_of_common (fun slice piece other found foundAgain =>
    Except.ok.inj (found.symm.trans foundAgain)) cut again

/-- Below a slice of a pattern the consecutive slices down to the bottom are joined to it. -/
theorem exists_pieces {bits taken : Bits} {width : Nat} {widths : List Nat}
    (positive : ∀ width ∈ widths, 0 < width) (above : bits.extract widths.sum width = .ok taken) :
    ∃ pieces, bits.CutsInto widths pieces ∧
      bits.extract 0 (width + widths.sum) = .ok (pieces.foldl concat taken) := by
  induction widths generalizing taken width with
  | nil => exact ⟨[], .nil, above⟩
  | cons next rest inductionHypothesis =>
    rw [List.forall_mem_cons] at positive
    rw [List.sum_cons, Nat.add_comm next] at above
    have inside := ((bits.extract_eq_ok_iff _ _ _).mp above).1
    obtain ⟨piece, cut⟩ : ∃ piece, bits.extract rest.sum next = .ok piece :=
      ⟨_, by rw [extract, dif_pos positive.1, if_pos (by omega)]⟩
    -- What was taken and the next piece are neighbours, so together they are one slice again.
    obtain ⟨pieces, each, joined⟩ :=
      inductionHypothesis positive.2 (extract_adjacent above cut)
    refine ⟨piece :: pieces, .cons cut each, ?_⟩
    rw [List.sum_cons, ← Nat.add_assoc]
    exact joined

/-- A pattern cut into consecutive slices is what the pieces are joined to. -/
theorem exists_pieces_of_whole {bits : Bits} {widths : List Nat}
    (positive : ∀ width ∈ widths, 0 < width) (whole : widths.sum = bits.width) :
    ∃ first rest, bits.CutsInto widths (first :: rest) ∧ rest.foldl concat first = bits := by
  cases widths with
  | nil => exact absurd whole (Nat.ne_of_lt bits.positive)
  | cons width rest =>
    rw [List.forall_mem_cons] at positive
    rw [List.sum_cons] at whole
    obtain ⟨first, cut⟩ : ∃ first, bits.extract rest.sum width = .ok first :=
      ⟨_, by rw [extract, dif_pos positive.1, if_pos (by omega)]⟩
    obtain ⟨pieces, each, joined⟩ := exists_pieces positive.2 cut
    rw [whole, extract_whole] at joined
    exact ⟨first, pieces, .cons cut each, (Except.ok.inj joined).symm⟩

/-- A slice of the first part moves up by the widths of all that come below. -/
theorem extract_foldl_concat {first slice : Bits} {lowest width : Nat}
    (found : first.extract lowest width = .ok slice) (rest : List Bits) :
    (rest.foldl concat first).extract ((rest.map Bits.width).sum + lowest) width = .ok slice := by
  induction rest generalizing first lowest with
  | nil =>
    rw [List.map_nil, List.sum_nil, Nat.zero_add]
    exact found
  | cons low rest inductionHypothesis =>
    have moved := inductionHypothesis (extract_concat_high found low)
    rw [← Nat.add_assoc, Nat.add_comm _ low.width] at moved
    rw [List.map_cons, List.sum_cons]
    exact moved

/-- What is joined below a pattern is cut off again at the widths of the parts. -/
theorem cutsInto_foldl_concat (taken : Bits) (parts : List Bits) :
    (parts.foldl concat taken).CutsInto (parts.map Bits.width) parts := by
  induction parts generalizing taken with
  | nil => exact .nil
  | cons part rest inductionHypothesis =>
    exact .cons (extract_foldl_concat (extract_concat_low taken part) rest)
      (inductionHypothesis (taken.concat part))

/-- Joined parts are cut apart again at their widths. -/
theorem cutsInto_joined (first : Bits) (rest : List Bits) :
    (rest.foldl concat first).CutsInto ((first :: rest).map Bits.width) (first :: rest) :=
  .cons (extract_foldl_concat first.extract_whole rest) (cutsInto_foldl_concat first rest)

end Bits

end BitGraph
