/-
This file proves the identities on bit patterns that folding relies on, each for
every width: building a pattern from its own numbers, taking away nothing or
everything, dividing by one, reducing a single bit, and slicing a slice.
-/

import BitGraph.Bits.Arithmetic
import BitGraph.Bits.Slice
import Mathlib

namespace BitGraph.Bits

/-! ### Checked construction -/

theorem ofMagnitude_of_fits {width magnitude : Nat} (positive : 0 < width)
    (fit : fits width magnitude = true) :
    ofMagnitude width magnitude = .ok ⟨width, positive, wrap width magnitude⟩ := by
  rw [ofMagnitude, dif_pos positive, if_pos fit]

/-- What is built has the width and the magnitude that were asked for, and the numbers of a pattern
build it again. -/
theorem ofMagnitude_eq_ok_iff {width magnitude : Nat} {bits : Bits} :
    ofMagnitude width magnitude = .ok bits ↔ bits.width = width ∧ bits.magnitude = magnitude := by
  constructor
  · intro built
    unfold ofMagnitude at built
    split at built
    case isTrue =>
      split at built
      case isTrue fit =>
        cases built
        refine ⟨rfl, ?_⟩
        rw [fits_iff, Nat.one_shiftLeft] at fit
        rw [Bits.magnitude, wrap_eq_ofNat, BitVec.toNat_ofNat]
        exact Nat.mod_eq_of_lt fit
      case isFalse => cases built
    case isFalse => cases built
  · rintro ⟨rfl, rfl⟩
    have small : bits.magnitude < 2 ^ bits.width := bits.value.isLt
    have fit : fits bits.width bits.magnitude = true := by
      rwa [fits_iff, Nat.one_shiftLeft]
    rw [ofMagnitude_of_fits bits.positive fit, Except.ok.injEq]
    refine eq_of_width_of_magnitude rfl ?_
    rw [magnitude, wrap_eq_ofNat, BitVec.toNat_ofNat]
    exact Nat.mod_eq_of_lt small

/-- Nothing but a width of zero and a magnitude that does not fit is refused. -/
theorem ofMagnitude_eq_error_iff {width magnitude : Nat} {reason : BitsError} :
    ofMagnitude width magnitude = .error reason ↔
      (width = 0 ∧ reason = .zeroWidth) ∨
      (0 < width ∧ 2 ^ width ≤ magnitude ∧ reason = .overflow width magnitude) := by
  have fit := fits_iff width magnitude
  rw [Nat.one_shiftLeft, ← Nat.not_le] at fit
  unfold ofMagnitude
  split
  case isTrue positive =>
    have some : ¬ width = 0 := Nat.ne_of_gt positive
    split
    case isTrue small => simp [some, fit.mp small]
    case isFalse large => simp [some, positive, not_not.mp (large ∘ fit.mpr), @eq_comm _ reason]
  case isFalse empty => simp [Nat.eq_zero_of_not_pos empty, @eq_comm _ reason]

/-! ### Zero and one -/

theorem isZero_iff (bits : Bits) : bits.isZero = true ↔ bits.value = BitVec.ofNat bits.width 0 := by
  rw [isZero, beq_iff_eq, ← BitVec.toNat_inj]
  exact Iff.rfl

theorem isOne_iff (bits : Bits) : bits.isOne = true ↔ bits.value = BitVec.ofNat bits.width 1 := by
  have one : (BitVec.ofNat bits.width 1).toNat = 1 := by
    rw [BitVec.toNat_ofNat]
    exact Nat.mod_eq_of_lt (Nat.one_lt_two_pow (Nat.ne_of_gt bits.positive))
  rw [isOne, beq_iff_eq, ← BitVec.toNat_inj, one]
  exact Iff.rfl

/-! ### Differences -/

theorem sub_of_isZero {left right : Bits} (same : right.width = left.width)
    (zero : right.isZero = true) : left.sub right = .ok left := by
  obtain ⟨width, positive, value⟩ := left
  obtain ⟨_, positive', value'⟩ := right
  cases same
  have vanishes : value' = BitVec.ofNat width 0 := (isZero_iff _).mp zero
  subst vanishes
  rw [sub_eq_zip, zip, dif_pos rfl]
  simp

theorem sub_self (bits : Bits) :
    bits.sub bits = .ok ⟨bits.width, bits.positive, BitVec.zero bits.width⟩ := by
  rw [sub_eq_zip, zip, dif_pos rfl]
  simp

/-! ### Quotients and remainders by one -/

theorem not_isZero_of_isOne {bits : Bits} (one : bits.isOne = true) : bits.isZero = false := by
  rw [isOne, beq_iff_eq] at one
  rw [isZero, one]
  rfl

theorem divideBy_of_isOne {left right : Bits} (same : right.width = left.width)
    (one : right.isOne = true)
    (combine : {width : Nat} → BitVec width → BitVec width → BitVec width) :
    divideBy combine left right =
      .ok ⟨left.width, left.positive, combine left.value (BitVec.ofNat left.width 1)⟩ := by
  obtain ⟨width, positive, value⟩ := left
  obtain ⟨_, positive', value'⟩ := right
  cases same
  have nonzero := not_isZero_of_isOne one
  have unit : value' = BitVec.ofNat width 1 := (isOne_iff _).mp one
  subst unit
  rw [divideBy, nonzero, if_neg (by simp), zip, dif_pos rfl]
  simp

theorem udiv_of_isOne {left right : Bits} (same : right.width = left.width)
    (one : right.isOne = true) : left.udiv right = .ok left := by
  rw [udiv, divideBy_of_isOne same one, BitVec.udiv_one]

theorem urem_of_isOne {left right : Bits} (same : right.width = left.width)
    (one : right.isOne = true) :
    left.urem right = .ok ⟨left.width, left.positive, BitVec.zero left.width⟩ := by
  rw [urem, divideBy_of_isOne same one, BitVec.umod_one]
  rfl

/-! ### Single bits -/

/-- Every reduction of a single bit is that bit. -/
theorem reduce_of_single {bits : Bits} (single : bits.width = 1) :
    bits.reduceAnd = bits ∧ bits.reduceOr = bits ∧ bits.reduceXor = bits := by
  obtain ⟨width, positive, value⟩ := bits
  cases single
  have each : value = 0#1 ∨ value = 1#1 := BitVec.eq_zero_or_eq_one value
  rcases each with rfl | rfl <;> decide +revert

/-! ### Slices -/

theorem extract_eq_ok_iff (bits : Bits) (low width : Nat) (slice : Bits) :
    bits.extract low width = .ok slice ↔
      low + width ≤ bits.width ∧ slice.width = width ∧
        slice.magnitude = bits.magnitude >>> low % 2 ^ width := by
  unfold extract
  by_cases positive : 0 < width
  · rw [dif_pos positive]
    by_cases inside : low + width ≤ bits.width
    · rw [if_pos inside, Except.ok.injEq]
      constructor
      · rintro rfl
        refine ⟨inside, rfl, ?_⟩
        rw [magnitude, wrap_eq_ofNat, BitVec.toNat_ofNat]
      · rintro ⟨_, sameWidth, sameMagnitude⟩
        refine eq_of_width_of_magnitude sameWidth.symm ?_
        rw [sameMagnitude, magnitude, wrap_eq_ofNat, BitVec.toNat_ofNat]
    · rw [if_neg inside]
      simp [inside]
  · rw [dif_neg positive]
    have empty : ∀ other : Bits, ¬ other.width = width := fun other same =>
      positive (same ▸ other.positive)
    simp [empty]

/-- The slice of all bits. -/
theorem extract_whole (bits : Bits) : bits.extract 0 bits.width = .ok bits := by
  rw [extract_eq_ok_iff]
  exact ⟨Nat.le_of_eq (Nat.zero_add _), rfl, (Nat.mod_eq_of_lt bits.value.isLt).symm⟩

/-- A slice of a slice is a slice. -/
theorem extract_extract {bits inner outer : Bits} {innerLow innerWidth low width : Nat}
    (first : bits.extract innerLow innerWidth = .ok inner)
    (second : inner.extract low width = .ok outer) :
    bits.extract (innerLow + low) width = .ok outer := by
  rw [extract_eq_ok_iff] at first second ⊢
  obtain ⟨innerInside, innerSame, innerMagnitude⟩ := first
  obtain ⟨inside, same, magnitude⟩ := second
  rw [innerSame] at inside
  refine ⟨by omega, same, ?_⟩
  rw [magnitude, innerMagnitude]
  refine Nat.eq_of_testBit_eq fun index => ?_
  simp only [Nat.testBit_mod_two_pow, Nat.testBit_shiftRight]
  by_cases below : index < width
  · have inner : low + index < innerWidth := by omega
    simp only [below, inner, decide_true, Bool.true_and]
    rw [Nat.add_assoc]
  · simp [below]

end BitGraph.Bits
