/-
This file computes patterns in plain numbers, and says where bits are cut off and where
they are not. Only construction from outside checks that a magnitude fits; sums,
differences, products, slices and truncations mask it, and every other operation takes
the number that comes out as it is. Each of them still has the outcome, as numbers,
that the operation on patterns has: its refusals, and no magnitude that does not fit.
-/

import BitGraph.Encoding.Graph
import BitGraph.Kind.Algebra
import BitGraph.Proofs.Bits.Exactness
import BitGraph.Proofs.Bits.Numbers

namespace BitGraph

/-- Why a computation in numbers ends without a pattern. -/
inductive Fault where
  /-- The operation refuses what it is given. -/
  | refused (reason : DecodeError)
  /-- More is taken away from a number than there is. -/
  | negative
  /-- A width takes more than 32 bits. -/
  | tooWide
  deriving DecidableEq

namespace Bits

/-- The operations that change the width of a pattern. -/
inductive Resizing where
  | truncate
  | zeroExtend
  | signExtend

/-- What a change of the width does to a pattern. -/
def Resizing.apply : Resizing → Bits → Nat → Except BitsError Bits
  | .truncate => Bits.truncate
  | .zeroExtend => Bits.zeroExtend
  | .signExtend => Bits.signExtend

/-- The operations that reduce a pattern to a single bit. -/
inductive Reduction where
  | and
  | or
  | xor

/-- What a reduction does to a pattern. -/
def Reduction.apply : Reduction → Bits → Bits
  | .and => reduceAnd
  | .or => reduceOr
  | .xor => reduceXor

end Bits

/-! ### Computing in numbers -/

namespace Figures

/-- A refusal. -/
def refuse (reason : BitsError) : Except Fault Figures :=
  .error (.refused (.refused reason))

/-- A width, as long as it takes at most 32 bits. -/
def word (width : Nat) : Except Fault Nat :=
  if width ≤ largestWidth then .ok width else .error .tooWide

/-- A difference, as long as it is not negative. -/
def minus (left right : Nat) : Except Fault Nat :=
  if right ≤ left then .ok (left - right) else .error .negative

/-- The number with as many low bits set as a width has. -/
def mask (width : Nat) : Nat :=
  2 ^ width - 1

/-- The pattern of a magnitude that is cut off at a width. -/
def wrapped (width magnitude : Nat) : Figures :=
  ⟨width, magnitude &&& mask width⟩

/-- Checked construction. -/
def checked (width magnitude : Nat) : Except Fault Figures :=
  if width = 0 then refuse .zeroWidth
  else if width < magnitude.size then refuse (.overflow width magnitude)
  else .ok ⟨width, magnitude⟩

/-- The element at a width. -/
def element : Element → Nat → Except Fault Figures
  | .zero, width => checked width 0
  | .one, width => checked width 1
  | .allOnes, width => if width = 0 then refuse .zeroWidth else .ok ⟨width, mask width⟩

/-- The pattern written by a literal. Its characters are counted in 32 bits, so that the count of
an overlong literal starts again from zero. -/
def literal (base digitWidth : Nat) (text : String) : Except Fault Figures :=
  let body := Bits.literalBody text
  match Numeral.read? base (Bits.unsigned body) with
  | some magnitude => do
    checked (← word (body.length % Numeral.wordBound * digitWidth)) magnitude
  | none => refuse (.malformedLiteral text)

/-- The pattern of a form. -/
def decode (json : Json) : Except Fault Figures := do
  match ← (json.fields ["width", "magnitude"]).mapError .refused with
  | [width, magnitude] =>
    let width ← (Json.required Json.decodeWord width).mapError .refused
    let magnitude ← (Json.required Json.decodeMagnitude magnitude).mapError .refused
    checked width magnitude
  | _ => .error (.refused .malformed)

/-- An operation on two patterns of one width. -/
def combine (operation : Bits.Binary) (left right : Figures) : Except Fault Figures :=
  if left.width ≠ right.width then
    refuse (.widthMismatch left.width right.width)
  else
    match operation with
    | .and => .ok ⟨left.width, left.magnitude &&& right.magnitude⟩
    | .or => .ok ⟨left.width, left.magnitude ||| right.magnitude⟩
    | .xor => .ok ⟨left.width, left.magnitude ^^^ right.magnitude⟩
    | .add => .ok (wrapped left.width (left.magnitude + right.magnitude))
    | .sub => do
      return wrapped left.width (← minus (left.magnitude + 2 ^ left.width) right.magnitude)
    | .mul => .ok (wrapped left.width (left.magnitude * right.magnitude))
    | .udiv =>
      if right.magnitude = 0 then refuse .divisionByZero
      else .ok ⟨left.width, left.magnitude / right.magnitude⟩
    | .urem =>
      if right.magnitude = 0 then refuse .divisionByZero
      else .ok ⟨left.width, left.magnitude % right.magnitude⟩

/-- The bits that are not set. -/
def complement (figures : Figures) : Figures :=
  ⟨figures.width, figures.magnitude ^^^ mask figures.width⟩

/-- The bit at an index. -/
def bit? (figures : Figures) (index : Nat) : Option Bool :=
  if figures.width ≤ index then none else some (figures.magnitude.testBit index)

/-- The top bit. -/
def msb (figures : Figures) : Except Fault Bool :=
  (minus figures.width 1).map figures.magnitude.testBit

/-- The same magnitude at another width, which must not be smaller. -/
def widen (figures : Figures) (width : Nat) : Except Fault Figures :=
  if width < figures.width then refuse (.invalidResize figures.width width)
  else .ok ⟨width, figures.magnitude⟩

/-- A change of the width. The bits above a sign are those that only one of two masks has. -/
def resize (figures : Figures) (width : Nat) : Bits.Resizing → Except Fault Figures
  | .truncate =>
    if width = 0 then refuse .zeroWidth
    else if figures.width < width then refuse (.invalidResize figures.width width)
    else .ok (wrapped width figures.magnitude)
  | .zeroExtend => figures.widen width
  | .signExtend => do
    let extended ← figures.widen width
    if ← figures.msb then
      return ⟨width, extended.magnitude ||| (mask width ^^^ mask figures.width)⟩
    else
      return extended

/-- The bits from a bit upwards. -/
def extract (figures : Figures) (low width : Nat) : Except Fault Figures :=
  if width = 0 then refuse .zeroWidth
  else if figures.width < low + width then refuse (.outOfRange low width figures.width)
  else .ok (wrapped width (figures.magnitude >>> low))

/-- The first pattern above the second. -/
def concat (high low : Figures) : Except Fault Figures :=
  (word (high.width + low.width)).map fun width =>
    ⟨width, high.magnitude <<< low.width ||| low.magnitude⟩

/-- A reduction to a single bit. -/
def reduce (figures : Figures) : Bits.Reduction → Figures
  | .and => ofBool (figures.magnitude == mask figures.width)
  | .or => ofBool (figures.magnitude != 0)
  | .xor => ofBool (Bits.oddParity figures.magnitude)

end Figures

/-! ### The same outcomes -/

/-- The outcome in numbers of what has an outcome as a pattern. -/
def inNumbers : Decoded Bits → Except Fault Figures
  | .ok bits => .ok bits.figures
  | .error reason => .error (.refused reason)

/-- A refusal of an operation on patterns, among those of decoding. -/
def Decoded.ofBits (outcome : Except BitsError Bits) : Decoded Bits :=
  outcome.mapError .refused

open Decoded (ofBits)

namespace Figures

/-- What is refused in numbers where it is refused on patterns, and computed where it is not, has
the same outcome. -/
theorem refuse_unless {reason : BitsError} {bad good : Prop} [Decidable bad] [Decidable good]
    {compute : Except Fault Figures} {outcome : good → Except BitsError Bits} (apart : bad ↔ ¬ good)
    (each : ∀ holds : good, compute = inNumbers (ofBits (outcome holds))) :
    (if bad then refuse reason else compute) =
      inNumbers (ofBits (if holds : good then outcome holds else .error reason)) := by
  by_cases holds : good
  · rw [if_neg (not_not.mpr holds ∘ apart.mp), dif_pos holds]
    exact each holds
  · rw [if_pos (apart.mpr holds), dif_neg holds]
    rfl

theorem wrapped_eq (width magnitude : Nat) :
    wrapped width magnitude = ⟨width, magnitude % 2 ^ width⟩ :=
  congrArg (mk width) (Nat.and_two_pow_sub_one_eq_mod magnitude width)

theorem checked_eq (width magnitude : Nat) :
    checked width magnitude = inNumbers (ofBits (Bits.ofMagnitude width magnitude)) := by
  have fits : magnitude.size ≤ width ↔ Bits.fits width magnitude = true := by
    rw [Bits.fits_iff, Nat.one_shiftLeft, Nat.size_le]
  refine refuse_unless Nat.pos_iff_ne_zero.not_left.symm fun positive => ?_
  refine refuse_unless (Nat.not_le.symm.trans fits.not) fun fit => ?_
  rw [Bits.fits_iff, Nat.one_shiftLeft] at fit
  rw [Bits.wrap_eq_ofNat]
  refine congrArg (fun number => Except.ok (mk width number)) ?_
  exact ((BitVec.toNat_ofNat magnitude width).trans (Nat.mod_eq_of_lt fit)).symm

theorem element_eq (element : Element) (width : Nat) :
    Figures.element element width = inNumbers (ofBits (element.value width)) := by
  cases element with
  | zero => exact checked_eq width 0
  | one => exact checked_eq width 1
  | allOnes =>
    refine refuse_unless Nat.pos_iff_ne_zero.not_left.symm fun positive => ?_
    exact congrArg (fun number => Except.ok (mk width number)) BitVec.toNat_allOnes.symm

/-- The count of a literal's characters may have started again from zero. What is read is then
checked against that count. -/
theorem literal_eq_of_word (base digitWidth : Nat) {text : String}
    (small : (Bits.literalBody text).length % Numeral.wordBound * digitWidth ≤ largestWidth) :
    ∃ outcome, literal base digitWidth text = inNumbers (ofBits outcome) ∧
      ((Bits.literalBody text).length < Numeral.wordBound →
        outcome = Bits.ofLiteral base digitWidth text) := by
  rw [literal, Bits.ofLiteral, word, if_pos small]
  cases Numeral.read? base (Bits.unsigned (Bits.literalBody text)) with
  | none => exact ⟨_, rfl, fun _ => rfl⟩
  | some magnitude =>
    refine ⟨_, checked_eq _ magnitude, fun short => ?_⟩
    rw [Nat.mod_eq_of_lt short]

theorem decode_eq (json : Json) : decode json = inNumbers (Bits.decode json) := by
  rw [decode, Bits.decode]
  cases json.fields ["width", "magnitude"] with
  | error reason => rfl
  | ok found =>
    rcases found with _ | ⟨width, _ | ⟨magnitude, _ | ⟨further, found⟩⟩⟩
    · rfl
    · rfl
    · show (((Json.required Json.decodeWord width).mapError Fault.refused).bind fun width =>
          ((Json.required Json.decodeMagnitude magnitude).mapError Fault.refused).bind
            (checked width)) =
        inNumbers ((Json.required Json.decodeWord width).bind fun width =>
          (Json.required Json.decodeMagnitude magnitude).bind fun magnitude =>
            ofBits (Bits.ofMagnitude width magnitude))
      cases Json.required Json.decodeWord width with
      | error reason => rfl
      | ok width =>
        cases Json.required Json.decodeMagnitude magnitude with
        | error reason => rfl
        | ok magnitude => exact checked_eq width magnitude
    · rfl

section Combining

variable {left right : Bits} (same : right.width = left.width)
include same

/-- What an operation computes is what comes out of it. -/
theorem ok_eq_of_computes {operate : Bits → Bits → Except BitsError Bits}
    {compute : Nat → Nat → Nat → Nat}
    (computes : Bits.Computes operate compute) (found : ∃ bits, operate left right = .ok bits) :
    .ok ⟨left.width, compute left.width left.magnitude right.magnitude⟩ =
      inNumbers (ofBits (operate left right)) := by
  obtain ⟨bits, operated⟩ := found
  have described := computes left right bits operated
  rw [zip?, if_pos (show right.figures.width = left.figures.width from same)] at described
  rw [operated]
  exact congrArg Except.ok (Option.some.inj described)

theorem exists_zip (join : {width : Nat} → BitVec width → BitVec width → BitVec width) :
    ∃ bits, Bits.zip join left right = .ok bits :=
  ⟨_, dif_pos same⟩

/-- An operation that divides is refused a zero divisor, and what it computes is not cut off. -/
theorem refuse_eq_divideBy {join : {width : Nat} → BitVec width → BitVec width → BitVec width}
    {compute : Nat → Nat → Nat → Nat} (computes : Bits.Computes (Bits.divideBy join) compute) :
    (if right.magnitude = 0 then refuse .divisionByZero
      else .ok ⟨left.width, compute left.width left.magnitude right.magnitude⟩) =
      inNumbers (ofBits (Bits.divideBy join left right)) := by
  split
  case isTrue zero =>
    rw [Bits.divideBy_eq_divisionByZero_iff.mpr ⟨same, zero⟩]
    rfl
  case isFalse nonzero =>
    refine ok_eq_of_computes same computes ?_
    rw [Bits.divideBy, if_neg fun divided => nonzero (beq_iff_eq.mp divided.2)]
    exact exists_zip same join

end Combining

theorem combine_eq (operation : Bits.Binary) (left right : Bits) :
    combine operation left.figures right.figures =
      inNumbers (ofBits (operation.apply left right)) := by
  unfold combine
  by_cases same : left.width = right.width
  · rw [if_neg (show ¬ left.figures.width ≠ right.figures.width from not_not.mpr same)]
    have subtracts := (Bits.exists_sub same.symm).1
    cases operation with
    | and => exact ok_eq_of_computes same.symm Bits.computes_and (exists_zip same.symm _)
    | or => exact ok_eq_of_computes same.symm Bits.computes_or (exists_zip same.symm _)
    | xor => exact ok_eq_of_computes same.symm Bits.computes_xor (exists_zip same.symm _)
    | add =>
      simp only [wrapped_eq]
      exact ok_eq_of_computes same.symm Bits.computes_add (exists_zip same.symm _)
    | sub =>
      have borrowed : minus (left.figures.magnitude + 2 ^ left.figures.width)
          right.figures.magnitude = .ok (left.magnitude + 2 ^ left.width - right.magnitude) :=
        if_pos subtracts
      simp only [borrowed, wrapped_eq]
      exact ok_eq_of_computes same.symm Bits.computes_sub (exists_zip same.symm _)
    | mul =>
      simp only [wrapped_eq]
      exact ok_eq_of_computes same.symm Bits.computes_mul (exists_zip same.symm _)
    | udiv => exact refuse_eq_divideBy same.symm Bits.computes_udiv
    | urem => exact refuse_eq_divideBy same.symm Bits.computes_urem
  · rw [if_pos (show left.figures.width ≠ right.figures.width from same),
      operation.apply_eq_widthMismatch_iff.mpr ⟨same, rfl, rfl⟩]
    rfl

theorem complement_eq (bits : Bits) : bits.figures.complement = bits.not.figures := by
  have flipped : (bits.value ^^^ BitVec.allOnes bits.width).toNat = (~~~bits.value).toNat := by
    rw [BitVec.xor_allOnes]
  rw [BitVec.toNat_xor, BitVec.toNat_allOnes] at flipped
  exact congrArg (mk bits.width) flipped

/-! ### Bits of a pattern -/

theorem bit?_eq (bits : Bits) (index : Nat) : bits.figures.bit? index = bits.bit? index := by
  rw [bit?, Bits.bit?]
  by_cases inside : index < bits.width
  · rw [if_neg (show ¬ bits.figures.width ≤ index from Nat.not_le.mpr inside), if_pos inside]
    exact congrArg some (BitVec.testBit_toNat bits.value)
  · rw [if_pos (show bits.figures.width ≤ index from Nat.le_of_not_lt inside), if_neg inside]

/-- A pattern has a bit, so that there is a top bit. -/
theorem msb_eq (bits : Bits) : bits.figures.msb = .ok bits.msb := by
  have below : minus bits.figures.width 1 = .ok (bits.width - 1) := if_pos bits.positive
  rw [msb, below]
  refine congrArg Except.ok ?_
  exact (BitVec.testBit_toNat bits.value).trans (BitVec.msb_eq_getLsbD_last bits.value).symm

/-! ### Other widths -/

theorem widen_eq (bits : Bits) (width : Nat) :
    bits.figures.widen width = inNumbers (ofBits (bits.zeroExtend width)) := by
  refine refuse_unless Nat.not_le.symm fun wider => ?_
  exact congrArg (fun number => Except.ok (mk width number))
    (BitVec.toNat_setWidth_of_le wider).symm

theorem wrapped_eq_figures {width : Nat} (positive : 0 < width) (magnitude : Nat) :
    wrapped width magnitude = (Bits.mk width positive (Bits.wrap width magnitude)).figures := by
  rw [wrapped_eq, Bits.wrap_eq_ofNat]
  exact congrArg (mk width) (BitVec.toNat_ofNat magnitude width).symm

theorem resize_eq (resizing : Bits.Resizing) (bits : Bits) (width : Nat) :
    bits.figures.resize width resizing = inNumbers (ofBits (resizing.apply bits width)) := by
  cases resizing with
  | truncate =>
    refine refuse_unless Nat.pos_iff_ne_zero.not_left.symm fun positive => ?_
    refine refuse_unless Nat.not_le.symm fun narrower => ?_
    exact congrArg Except.ok (wrapped_eq_figures positive bits.magnitude)
  | zeroExtend => exact widen_eq bits width
  | signExtend =>
    show (bits.figures.widen width).bind _ = inNumbers (ofBits (bits.signExtend width))
    rw [widen_eq, Bits.zeroExtend, Bits.signExtend]
    by_cases wider : bits.width ≤ width
    · rw [dif_pos wider, dif_pos wider]
      show (bits.figures.msb).bind _ = _
      rw [msb_eq]
      have unsigned : (bits.value.setWidth width).toNat = bits.value.toNat :=
        BitVec.toNat_setWidth_of_le wider
      show (if bits.value.msb = true then _ else _) = _
      split
      case isTrue sign =>
        refine congrArg (fun number => Except.ok (mk width number)) ?_
        show (bits.value.setWidth width).toNat ||| _ = (bits.value.signExtend width).toNat
        rw [unsigned, Bits.toNat_signExtend_of_msb wider sign]
        rfl
      case isFalse => rfl
    · rw [dif_neg wider, dif_neg wider]
      rfl

theorem extract_eq (bits : Bits) (low width : Nat) :
    bits.figures.extract low width = inNumbers (ofBits (bits.extract low width)) := by
  refine refuse_unless Nat.pos_iff_ne_zero.not_left.symm fun positive => ?_
  refine refuse_unless Nat.not_le.symm fun inside => ?_
  exact congrArg Except.ok (wrapped_eq_figures positive (bits.magnitude >>> low))

theorem concat_eq {high low : Bits} (small : high.width + low.width ≤ largestWidth) :
    high.figures.concat low.figures = .ok (high.concat low).figures := by
  have width : word (high.figures.width + low.figures.width) = .ok (high.width + low.width) :=
    if_pos small
  rw [concat, width]
  refine congrArg (fun number => Except.ok (mk (high.width + low.width) number)) ?_
  exact (BitVec.toNat_append high.value low.value).symm

theorem reduce_eq (reduction : Bits.Reduction) (bits : Bits) :
    bits.figures.reduce reduction = (reduction.apply bits).figures := by
  cases reduction with
  | and => exact bits.figures_reduceAnd.symm
  | or => exact (Bits.figures_ofBool _).symm
  | xor => exact (Bits.figures_ofBool _).symm

end Figures

end BitGraph
