/-
This file defines the operations that change the width of a bit pattern:
truncation, the two extensions, slices, concatenation, and the reductions to a
single bit.
-/

import BitGraph.Bits.Basic

namespace BitGraph.Bits

/-! ### Resizing -/

/-- The low `width` bits. A request for no bits is judged before one for too many. -/
def truncate (bits : Bits) (width : Nat) : Except BitsError Bits :=
  if positive : 0 < width then
    if width ≤ bits.width then
      .ok ⟨width, positive, wrap width bits.magnitude⟩
    else
      .error (.invalidResize bits.width width)
  else
    .error .zeroWidth

/-- The same magnitude at a width that is at least as large. -/
def zeroExtend (bits : Bits) (width : Nat) : Except BitsError Bits :=
  if wider : bits.width ≤ width then
    .ok ⟨width, Nat.lt_of_lt_of_le bits.positive wider, bits.value.setWidth width⟩
  else
    .error (.invalidResize bits.width width)

/-- The same signed reading at a width that is at least as large: the new bits repeat the
top bit. A pattern whose top bit is clear is only widened. -/
def signExtend (bits : Bits) (width : Nat) : Except BitsError Bits :=
  if wider : bits.width ≤ width then
    .ok ⟨width, Nat.lt_of_lt_of_le bits.positive wider,
      if bits.value.msb then bits.value.signExtend width else bits.value.setWidth width⟩
  else
    .error (.invalidResize bits.width width)

/-! ### Slices and concatenation -/

/-- The `width` bits from bit `low` upwards. -/
def extract (bits : Bits) (low width : Nat) : Except BitsError Bits :=
  if positive : 0 < width then
    if low + width ≤ bits.width then
      .ok ⟨width, positive, wrap width (bits.magnitude >>> low)⟩
    else
      .error (.outOfRange low width bits.width)
  else
    .error .zeroWidth

/-- The first pattern above the second. -/
def concat (high low : Bits) : Bits :=
  ⟨high.width + low.width, Nat.add_pos_left high.positive low.width, high.value ++ low.value⟩

/-! ### Reductions -/

/-- Whether an odd number of bits is set. Bits above the highest set one do not count, so
the walk stops there. -/
def oddParity (magnitude : Nat) : Bool :=
  (List.range (magnitude.log2 + 1)).foldl (fun odd index => odd ^^ magnitude.testBit index) false

/-- The conjunction of all bits. -/
def reduceAnd (bits : Bits) : Bits :=
  ofBool bits.isAllOnes

/-- The disjunction of all bits. -/
def reduceOr (bits : Bits) : Bits :=
  ofBool (!bits.isZero)

/-- The exclusive disjunction of all bits. -/
def reduceXor (bits : Bits) : Bits :=
  ofBool (oddParity bits.magnitude)

end BitGraph.Bits
