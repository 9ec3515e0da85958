/-
This file defines fixed-width bit patterns. A pattern carries its width, which
is positive, and a bit vector of that width, so a pattern that exists always
fits: the checked constructor `Bits.ofMagnitude` is the only place where a
width or a magnitude can be refused. Two patterns are equal exactly when their
widths and their magnitudes are.
-/

namespace BitGraph

/-- Why an operation on bit patterns was refused. -/
inductive BitsError where
  /-- The magnitude needs more than `width` bits. -/
  | overflow (width magnitude : Nat)
  /-- A pattern without bits was asked for. -/
  | zeroWidth
  /-- The divisor of a quotient or of a remainder is zero. -/
  | divisionByZero
  /-- The two sides of an operation have different widths. -/
  | widthMismatch (left right : Nat)
  /-- A truncation would widen, or an extension would narrow. -/
  | invalidResize (source target : Nat)
  /-- A slice reaches past the top bit. -/
  | outOfRange (low width source : Nat)
  /-- A text is no literal of the base it was read in. -/
  | malformedLiteral (text : String)
  deriving DecidableEq, Repr

/-- The wording of a refusal. -/
def BitsError.message : BitsError → String
  | .overflow width magnitude => s!"magnitude {magnitude} does not fit in {width} bits"
  | .zeroWidth => "bit-vector width must be non-zero"
  | .divisionByZero => "division by zero"
  | .widthMismatch left right => s!"width mismatch: {left} bits vs {right} bits"
  | .invalidResize source target => s!"cannot resize {source}-bit vector to {target} bits"
  | .outOfRange low width source =>
    s!"bits [{low}, {low}+{width}) are out of range for a {source}-bit vector"
  | .malformedLiteral text => s!"invalid bit-vector literal '{text}'"

/-- A bit pattern of a positive width. Signedness is not stored: the operations that
depend on it say so in their names. -/
structure Bits where
  /-- The number of bits. -/
  width : Nat
  positive : 0 < width
  /-- The bits, least significant first. -/
  value : BitVec width
  deriving DecidableEq, Repr

namespace Bits

/-- The unsigned reading of a pattern. -/
def magnitude (bits : Bits) : Nat :=
  bits.value.toNat

/-- A pattern is determined by its width and its magnitude. -/
theorem eq_of_width_of_magnitude {left right : Bits} (sameWidth : left.width = right.width)
    (sameMagnitude : left.magnitude = right.magnitude) : left = right := by
  obtain ⟨width, positive, value⟩ := left
  obtain ⟨width', positive', value'⟩ := right
  cases sameWidth
  have sameValue : value = value' := BitVec.eq_of_toNat_eq sameMagnitude
  rw [sameValue]

/-! ### Checked construction -/

/-- Whether a magnitude needs at most `width` bits. The test counts bits, so that a large
width costs nothing. -/
def fits (width magnitude : Nat) : Bool :=
  magnitude == 0 || magnitude.log2 < width

/-- The least number that does not fit is a one above as many zeros as there are bits. -/
theorem fits_iff (width magnitude : Nat) :
    fits width magnitude = true ↔ magnitude < 1 <<< width := by
  rw [Nat.one_shiftLeft]
  by_cases zero : magnitude = 0
  · subst zero
    exact iff_of_true rfl (Nat.two_pow_pos width)
  · simp [fits, zero, Nat.log2_lt]

/-- The low `width` bits of a number. A number that fits is taken as it is, so that the power
of two is computed only where bits are cut off. -/
def wrap (width number : Nat) : BitVec width :=
  if fit : fits width number = true then
    BitVec.ofNatLT number
      (Nat.lt_of_lt_of_eq ((fits_iff width number).mp fit) (Nat.one_shiftLeft width))
  else
    BitVec.ofNat width number

theorem wrap_eq_ofNat (width number : Nat) : wrap width number = BitVec.ofNat width number := by
  unfold wrap
  split
  · exact BitVec.ofNatLT_eq_ofNat _
  · rfl

/-- The pattern of a given width and magnitude. The width is judged before the magnitude. -/
def ofMagnitude (width magnitude : Nat) : Except BitsError Bits :=
  if positive : 0 < width then
    if fits width magnitude then
      .ok ⟨width, positive, wrap width magnitude⟩
    else
      .error (.overflow width magnitude)
  else
    .error .zeroWidth

/-- The pattern without a bit set. -/
def zero (width : Nat) : Except BitsError Bits :=
  ofMagnitude width 0

/-- The pattern with the lowest bit set alone. -/
def one (width : Nat) : Except BitsError Bits :=
  ofMagnitude width 1

/-- The pattern with every bit set. -/
def ones (width : Nat) : Except BitsError Bits :=
  if positive : 0 < width then .ok ⟨width, positive, BitVec.allOnes width⟩ else .error .zeroWidth

/-- A single bit. -/
def ofBool (bit : Bool) : Bits :=
  ⟨1, Nat.one_pos, BitVec.ofBool bit⟩

/-! ### Inspection -/

/-- The magnitude, if it lies below a bound. -/
def magnitudeBelow? (bits : Bits) (bound : Nat) : Option Nat :=
  if bits.magnitude < bound then some bits.magnitude else none

/-- No bit is set. -/
def isZero (bits : Bits) : Bool :=
  bits.magnitude == 0

/-- The magnitude is one. -/
def isOne (bits : Bits) : Bool :=
  bits.magnitude == 1

/-- Every bit is set. The top bit is looked at first, so that the all-ones pattern is built
only for a pattern that reaches its own width. -/
def isAllOnes (bits : Bits) : Bool :=
  bits.value.msb && bits.value == BitVec.allOnes bits.width

/-- The top bit, which is the sign in a signed reading. -/
def msb (bits : Bits) : Bool :=
  bits.value.msb

/-- The bit at an index, counted from the least significant one. -/
def bit? (bits : Bits) (index : Nat) : Option Bool :=
  if index < bits.width then some (bits.value.getLsbD index) else none

end Bits

end BitGraph
