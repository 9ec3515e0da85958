/-
This file proves that arithmetic on patterns is exact modulo two to the width. Each
operation is described by the integer that its result encodes: sums, differences and
products are those of the magnitudes, quotients and remainders divide with remainder,
and widening keeps the unsigned or the signed reading, so that cutting off the new
bits gives the pattern back.
-/

import BitGraph.Bits.Slice
import BitGraph.Proofs.Bits.Identities

namespace BitGraph.Bits

/-! ### Operations on two patterns of one width -/

/-- The operations that take two patterns of one width. -/
inductive Binary where
  | and
  | or
  | xor
  | add
  | sub
  | mul
  | udiv
  | urem

/-- What an operation does with two patterns. -/
def Binary.apply : Binary → Bits → Bits → Except BitsError Bits
  | .and => Bits.and
  | .or => Bits.or
  | .xor => Bits.xor
  | .add => Bits.add
  | .sub => Bits.sub
  | .mul => Bits.mul
  | .udiv => Bits.udiv
  | .urem => Bits.urem

/-- Each operation combines bit vectors of one width, and some do not divide by zero. -/
theorem Binary.apply_cases (operation : Binary) :
    (∃ combine : {width : Nat} → BitVec width → BitVec width → BitVec width,
      operation.apply = zip combine) ∨
    ∃ combine : {width : Nat} → BitVec width → BitVec width → BitVec width,
      operation.apply = divideBy combine := by
  cases operation with
  | and => exact .inl ⟨fun first second => first &&& second, rfl⟩
  | or => exact .inl ⟨fun first second => first ||| second, rfl⟩
  | xor => exact .inl ⟨fun first second => first ^^^ second, rfl⟩
  | add =>
    exact .inl ⟨fun first second => first + second, funext₂ add_eq_zip⟩
  | sub =>
    exact .inl ⟨fun first second => first - second, funext₂ sub_eq_zip⟩
  | mul =>
    exact .inl ⟨fun first second => first * second, funext₂ mul_eq_zip⟩
  | udiv => exact .inr ⟨fun first second => first / second, rfl⟩
  | urem => exact .inr ⟨fun first second => first % second, rfl⟩

section Widths

variable {combine : {width : Nat} → BitVec width → BitVec width → BitVec width}
  {left right : Bits} {first second : Nat}

theorem zip_eq_widthMismatch_iff :
    zip combine left right = .error (.widthMismatch first second) ↔
      left.width ≠ right.width ∧ first = left.width ∧ second = right.width := by
  rw [zip]
  split
  case isTrue same =>
    refine iff_of_false (fun refused => ?_) fun differ => differ.1 same.symm
    cases refused
  case isFalse differ =>
    rw [Except.error.injEq, BitsError.widthMismatch.injEq, eq_comm, @eq_comm _ right.width]
    exact (and_iff_right (Ne.symm differ)).symm

theorem divideBy_eq_widthMismatch_iff :
    divideBy combine left right = .error (.widthMismatch first second) ↔
      left.width ≠ right.width ∧ first = left.width ∧ second = right.width := by
  rw [divideBy]
  split
  case isTrue divided =>
    refine iff_of_false (fun refused => ?_) fun differ => differ.1 divided.1.symm
    cases refused
  case isFalse => exact zip_eq_widthMismatch_iff

/-- Exactly patterns of different widths are refused for their widths, whatever the operation. -/
theorem Binary.apply_eq_widthMismatch_iff (operation : Binary) :
    operation.apply left right = .error (.widthMismatch first second) ↔
      left.width ≠ right.width ∧ first = left.width ∧ second = right.width := by
  rcases operation.apply_cases with ⟨combine, same⟩ | ⟨combine, same⟩
  · rw [same, zip_eq_widthMismatch_iff]
  · rw [same, divideBy_eq_widthMismatch_iff]

theorem zip_ne_divisionByZero : zip combine left right ≠ .error .divisionByZero := by
  rw [zip]
  intro refused
  split at refused <;> cases refused

theorem divideBy_eq_divisionByZero_iff :
    divideBy combine left right = .error .divisionByZero ↔
      right.width = left.width ∧ right.magnitude = 0 := by
  simp only [divideBy, isZero, beq_iff_eq]
  split
  case isTrue divided => exact iff_of_true rfl divided
  case isFalse apart => exact iff_of_false zip_ne_divisionByZero apart

end Widths

/-! ### Encodings of integers -/

/-- The outcome is the pattern of a width that encodes an integer: its magnitude is the integer
modulo two to the width. -/
def Encodes (outcome : Except BitsError Bits) (width : Nat) (number : ℤ) : Prop :=
  ∃ bits, outcome = .ok bits ∧ bits.width = width ∧ (bits.magnitude : ℤ) = number % 2 ^ width

/-- The signed reading of a pattern: from half of two to the width on, magnitudes stand for negative
numbers. -/
def signed (bits : Bits) : ℤ :=
  if 2 * bits.magnitude < 2 ^ bits.width then bits.magnitude else bits.magnitude - 2 ^ bits.width

theorem magnitude_lt (bits : Bits) : bits.magnitude < 2 ^ bits.width :=
  bits.value.isLt

theorem encodes_magnitude (bits : Bits) : Encodes (.ok bits) bits.width bits.magnitude := by
  refine ⟨bits, rfl, rfl, (Int.emod_eq_of_lt (Int.natCast_nonneg _) ?_).symm⟩
  exact_mod_cast bits.magnitude_lt

theorem signed_emod (bits : Bits) : bits.signed % 2 ^ bits.width = bits.magnitude := by
  have encoded : (bits.magnitude : ℤ) % 2 ^ bits.width = bits.magnitude :=
    Int.emod_eq_of_lt (Int.natCast_nonneg _) (by exact_mod_cast bits.magnitude_lt)
  unfold signed
  split
  · exact encoded
  · rw [Int.sub_emod_right, encoded]

theorem encodes_signed (bits : Bits) : Encodes (.ok bits) bits.width bits.signed :=
  ⟨bits, rfl, rfl, bits.signed_emod.symm⟩

theorem signed_eq_toInt (bits : Bits) : bits.signed = bits.value.toInt := by
  rw [BitVec.toInt_eq_toNat_cond, signed]
  push_cast
  rfl

section Encodes

variable {outcome other : Except BitsError Bits} {width : Nat} {number : ℤ}

theorem Encodes.congr (encodes : Encodes outcome width number) {equal : ℤ}
    (same : number % 2 ^ width = equal % 2 ^ width) : Encodes outcome width equal := by
  obtain ⟨bits, found, sameWidth, magnitude⟩ := encodes
  exact ⟨bits, found, sameWidth, magnitude.trans same⟩

/-- There is one encoding of an integer at a width. -/
theorem Encodes.unique (encodes : Encodes outcome width number)
    (others : Encodes other width number) : outcome = other := by
  obtain ⟨bits, rfl, sameWidth, magnitude⟩ := encodes
  obtain ⟨bits', rfl, sameWidth', magnitude'⟩ := others
  refine congrArg Except.ok (eq_of_width_of_magnitude (sameWidth.trans sameWidth'.symm) ?_)
  exact_mod_cast magnitude.trans magnitude'.symm

/-- Cutting off bits of an encoding gives the encoding at the smaller width. -/
theorem Encodes.truncate {bits : Bits} (encodes : Encodes (.ok bits) width number) {narrow : Nat}
    (positive : 0 < narrow) (narrower : narrow ≤ width) :
    Encodes (bits.truncate narrow) narrow number := by
  obtain ⟨_, same, rfl, magnitude⟩ := encodes
  cases same
  rw [Bits.truncate, dif_pos positive, if_pos narrower, wrap_eq_ofNat]
  refine ⟨_, rfl, rfl, ?_⟩
  show ((BitVec.ofNat narrow bits.magnitude).toNat : ℤ) = _
  rw [BitVec.toNat_ofNat]
  push_cast
  rw [magnitude, Int.emod_emod_of_dvd _ (pow_dvd_pow 2 narrower)]

end Encodes

/-! ### Sums, differences, products -/

section Wrapping

variable {left right : Bits} (same : right.width = left.width)
include same

theorem encodes_zip {combine : {width : Nat} → BitVec width → BitVec width → BitVec width}
    (compute : ℤ → ℤ → ℤ) (each : ∀ {width : Nat} (first second : BitVec width),
      ((combine first second).toNat : ℤ) = compute first.toNat second.toNat % 2 ^ width) :
    Encodes (zip combine left right) left.width (compute left.magnitude right.magnitude) := by
  obtain ⟨width, positive, value⟩ := left
  obtain ⟨_, positive', value'⟩ := right
  cases same
  rw [zip, dif_pos rfl]
  exact ⟨_, rfl, rfl, each value value'⟩

theorem encodes_add :
    Encodes (left.add right) left.width (left.magnitude + right.magnitude) := by
  rw [add_eq_zip]
  refine encodes_zip same (fun first second => first + second) fun first second => ?_
  rw [BitVec.toNat_add]
  push_cast
  rfl

theorem encodes_sub :
    Encodes (left.sub right) left.width (left.magnitude - right.magnitude) := by
  rw [sub_eq_zip]
  refine encodes_zip same (fun first second => first - second) fun first second => ?_
  rw [BitVec.toNat_sub]
  push_cast [Nat.le_of_lt second.isLt]
  rw [sub_add_eq_add_sub, add_sub_assoc, Int.add_emod_left]

theorem encodes_mul :
    Encodes (left.mul right) left.width (left.magnitude * right.magnitude) := by
  rw [mul_eq_zip]
  refine encodes_zip same (fun first second => first * second) fun first second => ?_
  rw [BitVec.toNat_mul]
  push_cast
  rfl

/-- With the modulus borrowed nothing is negative on the way to a difference. -/
theorem exists_sub : right.magnitude ≤ left.magnitude + 2 ^ left.width ∧
    ∃ difference, left.sub right = .ok difference ∧ difference.magnitude =
      (left.magnitude + 2 ^ left.width - right.magnitude) % 2 ^ left.width := by
  have borrowed : right.magnitude ≤ left.magnitude + 2 ^ left.width :=
    (Nat.le_of_lt (same ▸ right.magnitude_lt)).trans (Nat.le_add_left _ _)
  obtain ⟨difference, subtracted, _, magnitude⟩ := encodes_sub same
  refine ⟨borrowed, difference, subtracted, ?_⟩
  rw [← Int.natCast_inj, magnitude]
  push_cast [borrowed]
  rw [add_sub_right_comm, Int.add_emod_right]

/-- Taking away what was added gives the pattern back. -/
theorem add_bind_sub : (left.add right).bind (·.sub right) = .ok left := by
  obtain ⟨sum, added, width, magnitude⟩ := encodes_add same
  have undone := encodes_sub (same.trans width.symm)
  rw [width, magnitude] at undone
  rw [added]
  refine (undone.congr ?_).unique left.encodes_magnitude
  rw [Int.emod_sub_emod, add_sub_cancel_right]

/-- A divisor that is not zero divides with remainder. -/
theorem exists_quotient_remainder (nonzero : 0 < right.magnitude) :
    ∃ quotient remainder, left.udiv right = .ok quotient ∧ left.urem right = .ok remainder ∧
      quotient.width = left.width ∧ remainder.width = left.width ∧
      left.magnitude = quotient.magnitude * right.magnitude + remainder.magnitude ∧
      remainder.magnitude < right.magnitude := by
  have divides : ¬ (right.width = left.width ∧ right.isZero = true) := fun divided =>
    Nat.ne_of_gt nonzero (beq_iff_eq.mp divided.2)
  rw [udiv, urem, divideBy, divideBy, if_neg divides, if_neg divides]
  obtain ⟨width, positive, value⟩ := left
  obtain ⟨_, positive', value'⟩ := right
  cases same
  rw [zip, zip, dif_pos rfl, dif_pos rfl]
  refine ⟨_, _, rfl, rfl, rfl, rfl, ?_, ?_⟩
  · show value.toNat = (value / value').toNat * value'.toNat + (value % value').toNat
    rw [BitVec.toNat_udiv, BitVec.toNat_umod, Nat.div_add_mod']
  · show (value % value').toNat < value'.toNat
    rw [BitVec.toNat_umod]
    exact Nat.mod_lt _ nonzero

end Wrapping

/-! ### Widening -/

section Widening

variable {bits : Bits} {width : Nat} (wider : bits.width ≤ width)
include wider

theorem exists_zeroExtend : ∃ extended, bits.zeroExtend width = .ok extended ∧
    extended.width = width ∧ extended.magnitude = bits.magnitude :=
  ⟨_, dif_pos wider, rfl, BitVec.toNat_setWidth_of_le wider⟩

/-- Below a clear top bit a pattern is only widened, which is the same as repeating that bit. -/
theorem signExtend_eq_ok : bits.signExtend width =
    .ok ⟨width, Nat.lt_of_lt_of_le bits.positive wider, bits.value.signExtend width⟩ := by
  rw [signExtend, dif_pos wider]
  split
  · rfl
  · rename_i clear
    rw [BitVec.signExtend_eq_setWidth_of_msb_false (Bool.eq_false_of_not_eq_true clear)]

theorem encodes_signExtend : Encodes (bits.signExtend width) width bits.signed := by
  rw [signExtend_eq_ok wider]
  refine ⟨_, rfl, rfl, ?_⟩
  rw [← signed_emod, signed_eq_toInt, signed_eq_toInt, BitVec.toInt_signExtend_of_le wider]

end Widening

/-- All bits that are not set in a pattern are what it lacks to the pattern with every bit set. -/
theorem exists_ones (bits : Bits) : ∃ ones, Bits.ones bits.width = .ok ones ∧
    bits.not.width = bits.width ∧ bits.not.magnitude + bits.magnitude = ones.magnitude := by
  refine ⟨_, dif_pos bits.positive, rfl, ?_⟩
  show (~~~bits.value).toNat + bits.value.toNat = (BitVec.allOnes bits.width).toNat
  rw [BitVec.toNat_not, BitVec.toNat_allOnes]
  exact Nat.sub_add_cancel (Nat.le_sub_one_of_lt bits.value.isLt)

/-- Arithmetic on patterns is exact modulo two to the width. Patterns of one width have the sum, the
difference and the product of their magnitudes, and they are divided with remainder unless the
divisor is zero; widening keeps the unsigned or the signed reading, and cutting off undoes it. Only
different widths are refused as such, whatever the divisor is. -/
theorem arithmetic_exact (left right : Bits) :
    (∀ (operation : Binary) (first second : Nat),
      operation.apply left right = .error (.widthMismatch first second) ↔
        left.width ≠ right.width ∧ first = left.width ∧ second = right.width) ∧
    (right.width = left.width →
      Encodes (left.add right) left.width (left.magnitude + right.magnitude) ∧
      Encodes (left.sub right) left.width (left.magnitude - right.magnitude) ∧
      Encodes (left.mul right) left.width (left.magnitude * right.magnitude) ∧
      (right.magnitude ≤ left.magnitude + 2 ^ left.width ∧
        ∃ difference, left.sub right = .ok difference ∧ difference.magnitude =
          (left.magnitude + 2 ^ left.width - right.magnitude) % 2 ^ left.width) ∧
      (left.add right).bind (·.sub right) = .ok left ∧
      (0 < right.magnitude → ∃ quotient remainder,
        left.udiv right = .ok quotient ∧ left.urem right = .ok remainder ∧
        quotient.width = left.width ∧ remainder.width = left.width ∧
        left.magnitude = quotient.magnitude * right.magnitude + remainder.magnitude ∧
        remainder.magnitude < right.magnitude) ∧
      (left.udiv right = .error .divisionByZero ↔ right.magnitude = 0) ∧
      (left.urem right = .error .divisionByZero ↔ right.magnitude = 0)) ∧
    (∃ ones, Bits.ones left.width = .ok ones ∧ left.not.width = left.width ∧
      left.not.magnitude + left.magnitude = ones.magnitude) ∧
    ∀ width, left.width ≤ width →
      (∃ extended, left.zeroExtend width = .ok extended ∧ extended.width = width ∧
        extended.magnitude = left.magnitude ∧ extended.truncate left.width = .ok left) ∧
      ∃ extended, left.signExtend width = .ok extended ∧ extended.width = width ∧
        (extended.magnitude : ℤ) = left.signed % 2 ^ width ∧
        extended.truncate left.width = .ok left := by
  refine ⟨fun operation _ _ => operation.apply_eq_widthMismatch_iff, fun same => ?_,
    left.exists_ones, fun width wider => ⟨?_, ?_⟩⟩
  · refine ⟨encodes_add same, encodes_sub same, encodes_mul same, exists_sub same,
      add_bind_sub same, exists_quotient_remainder same, ?_, ?_⟩
    · exact divideBy_eq_divisionByZero_iff.trans (and_iff_right same)
    · exact divideBy_eq_divisionByZero_iff.trans (and_iff_right same)
  · obtain ⟨extended, widened, sameWidth, magnitude⟩ := exists_zeroExtend wider
    have encodes := extended.encodes_magnitude
    rw [sameWidth, magnitude] at encodes
    exact ⟨extended, widened, sameWidth, magnitude,
      (encodes.truncate left.positive wider).unique left.encodes_magnitude⟩
  · obtain ⟨extended, widened, sameWidth, magnitude⟩ := encodes_signExtend wider
    have encodes : Encodes (.ok extended) width left.signed :=
      ⟨extended, rfl, sameWidth, magnitude⟩
    refine ⟨extended, widened, sameWidth, magnitude, ?_⟩
    exact (encodes.truncate left.positive wider).unique left.encodes_signed

/-- Five less twelve wraps around to nine, and divides as zero with everything left over. Twelve
reads as four below zero in four bits, and extended to seven bits it is as far below 128. -/
theorem arithmetic_exact_nibbles :
    let five : Bits := ⟨4, by decide, 5#4⟩
    let twelve : Bits := ⟨4, by decide, 12#4⟩
    Encodes (five.sub twelve) 4 (-7) ∧ five.sub twelve = .ok ⟨4, by decide, 9#4⟩ ∧
      twelve.signed = -4 ∧
      (∃ quotient remainder, five.udiv twelve = .ok quotient ∧ five.urem twelve = .ok remainder ∧
        5 = quotient.magnitude * 12 + remainder.magnitude ∧ remainder.magnitude < 12) ∧
      ∃ extended, twelve.signExtend 7 = .ok extended ∧ (extended.magnitude : ℤ) = -4 % 128 ∧
        extended.truncate 4 = .ok twelve := by
  intro five twelve
  obtain ⟨_, sameWidth, _⟩ := arithmetic_exact five twelve
  obtain ⟨_, difference, _, _, _, divides, _⟩ := sameWidth rfl
  obtain ⟨quotient, remainder, divided, modulo, _, _, whole, small⟩ := divides (by decide)
  obtain ⟨extended, widened, _, magnitude, undone⟩ :=
    ((arithmetic_exact twelve five).2.2.2 7 (by decide)).2
  exact ⟨difference, by decide, by decide, ⟨quotient, remainder, divided, modulo, whole, small⟩,
    extended, widened, magnitude, undone⟩

end BitGraph.Bits
