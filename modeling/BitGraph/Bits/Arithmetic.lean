/-
This file defines the operations on two bit patterns of one width. Each is the
operation of the same name on bit vectors, so sums, differences and products
wrap around at the width; the lemmas behind their definitions say so. Patterns
of different widths are refused, and that refusal comes before the one of a
zero divisor.
-/

import BitGraph.Bits.Basic

namespace BitGraph.Bits

/-- Combine two patterns of one width bit vector by bit vector. -/
def zip (combine : {width : Nat} → BitVec width → BitVec width → BitVec width)
    (left right : Bits) : Except BitsError Bits :=
  if same : right.width = left.width then
    .ok ⟨left.width, left.positive, combine left.value (right.value.cast same)⟩
  else
    .error (.widthMismatch left.width right.width)

/-- Combine two patterns of one width, of which the second must not be zero. -/
def divideBy (combine : {width : Nat} → BitVec width → BitVec width → BitVec width)
    (left right : Bits) : Except BitsError Bits :=
  if right.width = left.width ∧ right.isZero then
    .error .divisionByZero
  else
    zip combine left right

/-- The bits set on both sides. -/
def and (left right : Bits) : Except BitsError Bits :=
  zip (fun first second => first &&& second) left right

/-- The bits set on either side. -/
def or (left right : Bits) : Except BitsError Bits :=
  zip (fun first second => first ||| second) left right

/-- The bits set on exactly one side. -/
def xor (left right : Bits) : Except BitsError Bits :=
  zip (fun first second => first ^^^ second) left right

/-- The sum, modulo two to the width. -/
def add (left right : Bits) : Except BitsError Bits :=
  zip (fun first second => wrap _ (first.toNat + second.toNat)) left right

theorem add_eq_zip (left right : Bits) :
    add left right = zip (fun first second => first + second) left right := by
  unfold add
  congr
  funext width first second
  rw [wrap_eq_ofNat]
  rfl

/-- The difference, modulo two to the width. Only a difference that would be negative borrows
the modulus. -/
def sub (left right : Bits) : Except BitsError Bits :=
  zip (fun first second =>
    if second.toNat ≤ first.toNat then wrap _ (first.toNat - second.toNat) else first - second)
    left right

theorem sub_eq_zip (left right : Bits) :
    sub left right = zip (fun first second => first - second) left right := by
  unfold sub
  congr
  funext width first second
  split
  · rename_i small
    rw [wrap_eq_ofNat]
    apply BitVec.eq_of_toNat_eq
    rw [BitVec.toNat_ofNat, BitVec.toNat_sub_of_le small]
    exact Nat.mod_eq_of_lt (Nat.lt_of_le_of_lt (Nat.sub_le _ _) first.isLt)
  · rfl

/-- The product, modulo two to the width. -/
def mul (left right : Bits) : Except BitsError Bits :=
  zip (fun first second => wrap _ (first.toNat * second.toNat)) left right

theorem mul_eq_zip (left right : Bits) :
    mul left right = zip (fun first second => first * second) left right := by
  unfold mul
  congr
  funext width first second
  rw [wrap_eq_ofNat]
  rfl

/-- The unsigned quotient. -/
def udiv (left right : Bits) : Except BitsError Bits :=
  divideBy (fun first second => first / second) left right

/-- The unsigned remainder. -/
def urem (left right : Bits) : Except BitsError Bits :=
  divideBy (fun first second => first % second) left right

/-- The bits that are not set. -/
def not (bits : Bits) : Bits :=
  ⟨bits.width, bits.positive, ~~~bits.value⟩

end BitGraph.Bits
