/-
This file says what the operations on bit patterns do to numbers. A pattern is written
in two of them, its width and its magnitude, and nothing in two numbers keeps the
magnitude below the power of two that the width allows: sums, differences, products
and slices are cut off, and everything else has to stay below by itself. Widths are
added in words of 32 bits.
-/

import BitGraph.BitType
import BitGraph.Proofs.Bits.Combining

namespace BitGraph

/-- The numbers that a pattern is written in. -/
structure Figures where
  width : Nat
  magnitude : Nat

/-- A pattern as numbers. -/
def Bits.figures (bits : Bits) : Figures :=
  ⟨bits.width, bits.magnitude⟩

namespace Figures

/-- Compute the magnitude of a result from two magnitudes of one width. -/
def zip? (compute : Nat → Nat → Nat → Nat) (left right : Figures) : Option Figures :=
  if right.width = left.width then
    some ⟨left.width, compute left.width left.magnitude right.magnitude⟩
  else
    none

/-- A single bit. -/
def ofBool (bit : Bool) : Figures :=
  ⟨1, if bit then 1 else 0⟩

/-- The first pattern above the second, if the sum of the widths takes at most 32 bits. -/
def concat? (high low : Figures) : Option Figures :=
  if high.width + low.width ≤ largestWidth then
    some ⟨high.width + low.width, high.magnitude <<< low.width ||| low.magnitude⟩
  else
    none

/-- The bits from a bit upwards, cut off at a width. -/
def extract? (low width : Nat) (figures : Figures) : Option Figures :=
  if low + width ≤ figures.width then
    some ⟨width, (figures.magnitude >>> low) % 2 ^ width⟩
  else
    none

/-- The same magnitude at a width that is at least as large. -/
def zeroExtend? (width : Nat) (figures : Figures) : Option Figures :=
  if figures.width ≤ width then some ⟨width, figures.magnitude⟩ else none

/-- The same signed reading at a width that is at least as large: below a sign the new bits are
filled in. -/
def signExtend? (width : Nat) (figures : Figures) : Option Figures :=
  (figures.zeroExtend? width).map fun extended =>
    if figures.magnitude.testBit (figures.width - 1) then
      { extended with
        magnitude := extended.magnitude ||| ((2 ^ width - 1) ^^^ (2 ^ figures.width - 1)) }
    else
      extended

end Figures

namespace Bits

theorem some_figures {width magnitude : Nat} {positive : 0 < width} {value : BitVec width}
    (same : value.toNat = magnitude) :
    some (Figures.mk width magnitude) = some (Bits.mk width positive value).figures :=
  congrArg (fun number => some (Figures.mk width number)) same.symm

/-! ### Two patterns of one width -/

/-- An operation on patterns computes its magnitudes like this. -/
def Computes (combine : Bits → Bits → Except BitsError Bits) (compute : Nat → Nat → Nat → Nat) :
    Prop :=
  ∀ left right bits, combine left right = .ok bits →
    Figures.zip? compute left.figures right.figures = some bits.figures

theorem computes_zip {join : {width : Nat} → BitVec width → BitVec width → BitVec width}
    {compute : Nat → Nat → Nat → Nat} (each : ∀ {width : Nat} (first second : BitVec width),
      (join first second).toNat = compute width first.toNat second.toNat) :
    Computes (zip join) compute := by
  intro left right bits joined
  obtain ⟨width, positive, value⟩ := left
  obtain ⟨_, positive', value'⟩ := right
  rw [zip] at joined
  split at joined
  case isTrue same =>
    cases same
    cases joined
    exact (if_pos rfl).trans (some_figures (each value value'))
  case isFalse => cases joined

theorem computes_divideBy {join : {width : Nat} → BitVec width → BitVec width → BitVec width}
    {compute : Nat → Nat → Nat → Nat} (each : ∀ {width : Nat} (first second : BitVec width),
      (join first second).toNat = compute width first.toNat second.toNat) :
    Computes (divideBy join) compute := by
  intro left right bits divided
  rw [divideBy] at divided
  split at divided
  case isTrue => cases divided
  case isFalse => exact computes_zip each left right bits divided

theorem computes_add : Computes add fun width left right => (left + right) % 2 ^ width := by
  intro left right bits added
  exact computes_zip BitVec.toNat_add left right bits (add_eq_zip left right ▸ added)

theorem computes_mul : Computes mul fun width left right => left * right % 2 ^ width := by
  intro left right bits multiplied
  exact computes_zip BitVec.toNat_mul left right bits (mul_eq_zip left right ▸ multiplied)

theorem computes_and : Computes and fun _ left right => left &&& right :=
  computes_zip BitVec.toNat_and

theorem computes_or : Computes or fun _ left right => left ||| right :=
  computes_zip BitVec.toNat_or

theorem computes_xor : Computes xor fun _ left right => left ^^^ right :=
  computes_zip BitVec.toNat_xor

/-- The modulus is borrowed before the right side is taken away, so nothing is negative on the
way. -/
theorem computes_sub :
    Computes sub fun width left right => (left + 2 ^ width - right) % 2 ^ width := by
  intro left right bits subtracted
  refine computes_zip (fun {width} first second => ?_) left right bits
    (sub_eq_zip left right ▸ subtracted)
  rw [BitVec.toNat_sub, Nat.add_comm, ← Nat.add_sub_assoc (Nat.le_of_lt second.isLt)]

theorem computes_udiv : Computes udiv fun _ left right => left / right :=
  computes_divideBy fun _ _ => BitVec.toNat_udiv

theorem computes_urem : Computes urem fun _ left right => left % right :=
  computes_divideBy fun _ _ => BitVec.toNat_umod

/-! ### Reductions -/

theorem figures_ofBool (bit : Bool) : (ofBool bit).figures = .ofBool bit := by
  cases bit <;> rfl

theorem figures_reduceAnd (bits : Bits) :
    bits.reduceAnd.figures = .ofBool (bits.magnitude == 2 ^ bits.width - 1) := by
  rw [reduceAnd, figures_ofBool]
  refine congrArg Figures.ofBool (Bool.eq_iff_iff.mpr ?_)
  rw [beq_iff_eq, ← BitVec.toNat_allOnes]
  exact (Element.holds_iff .allOnes bits).trans BitVec.toNat_inj.symm

/-! ### Other widths -/

theorem figures_concat {high low : Bits} (small : (high.concat low).width ≤ largestWidth) :
    high.figures.concat? low.figures = some (high.concat low).figures :=
  (if_pos small).trans (some_figures (BitVec.toNat_append high.value low.value))

theorem figures_extract {bits slice : Bits} {low width : Nat}
    (extracted : bits.extract low width = .ok slice) :
    bits.figures.extract? low width = some slice.figures := by
  rw [extract] at extracted
  split at extracted
  case isTrue =>
    split at extracted
    case isTrue inside =>
      cases extracted
      rw [wrap_eq_ofNat]
      exact (if_pos inside).trans (some_figures (BitVec.toNat_ofNat _ width))
    case isFalse => cases extracted
  case isFalse => cases extracted

theorem figures_zeroExtend {bits extended : Bits} {width : Nat}
    (widened : bits.zeroExtend width = .ok extended) :
    bits.figures.zeroExtend? width = some extended.figures := by
  rw [zeroExtend] at widened
  split at widened
  case isTrue wider =>
    cases widened
    exact (if_pos wider).trans (some_figures (BitVec.toNat_setWidth_of_le wider))
  case isFalse => cases widened

/-- Below a sign, extending sets all the bits that the wider mask has and the other one has not. -/
theorem toNat_signExtend_of_msb {source width : Nat} {value : BitVec source}
    (wider : source ≤ width) (sign : value.msb = true) :
    (value.signExtend width).toNat = value.toNat ||| ((2 ^ width - 1) ^^^ (2 ^ source - 1)) := by
  refine Nat.eq_of_testBit_eq fun index => ?_
  rw [BitVec.testBit_toNat, BitVec.getLsbD_signExtend, Nat.testBit_or, Nat.testBit_xor,
    Nat.testBit_two_pow_sub_one, Nat.testBit_two_pow_sub_one, BitVec.testBit_toNat, sign]
  by_cases inside : index < source
  · simp [inside, Nat.lt_of_lt_of_le inside wider]
  · simp [inside, BitVec.getLsbD_of_ge value index (Nat.le_of_not_lt inside)]

theorem figures_signExtend {bits extended : Bits} {width : Nat}
    (widened : bits.signExtend width = .ok extended) :
    bits.figures.signExtend? width = some extended.figures := by
  rw [signExtend] at widened
  split at widened
  case isTrue wider =>
    cases widened
    have filled : bits.figures.zeroExtend? width = some ⟨width, bits.magnitude⟩ := if_pos wider
    have top : bits.figures.magnitude.testBit (bits.figures.width - 1) = bits.value.msb :=
      (BitVec.msb_eq_getLsbD_last bits.value).symm
    rw [Figures.signExtend?, filled, Option.map_some, top]
    cases sign : bits.value.msb with
    | true => exact some_figures (toNat_signExtend_of_msb wider sign)
    | false => exact some_figures (BitVec.toNat_setWidth_of_le wider)
  case isFalse => cases widened

end Bits

end BitGraph
