/-
This file says bit by bit what the operations on patterns do that move, join, fill and
combine bits, and what the reductions make of all of them. Shifts and masks are read off
the numbers that patterns are written in. The parity is counted digit by digit, where a
digit has 64 bits, and the digits of a number meet without a gap, so that no set bit is
counted twice or missed where one digit ends and the next one starts.
-/

import BitGraph.Proofs.Bits.Unchecked

namespace BitGraph

open Decoded (ofBits)

/-! ### Counting set bits -/

/-- How many of the lowest bits of a number are set. -/
def setBits (width number : Nat) : Nat :=
  (List.range width).countP number.testBit

/-- How many bits are set in all digits of a number to the base of 2 to the 64. -/
def population (number : Nat) : Nat :=
  ((Nat.digits (2 ^ 64) number).map (setBits 64)).sum

/-- The set bits of a number are those of its low part and those of what stands above. -/
theorem setBits_add {low : Nat} (width rest high : Nat) (small : low < 2 ^ width) :
    setBits (width + rest) (low + 2 ^ width * high) = setBits width low + setBits rest high := by
  have bit (index : Nat) : (low + 2 ^ width * high).testBit index =
      if index < width then low.testBit index else high.testBit (index - width) := by
    rw [Nat.add_comm]
    exact Nat.testBit_two_pow_mul_add high small index
  rw [setBits, List.range_add, List.countP_append, List.countP_map]
  refine congrArg₂ (· + ·) (List.countP_congr fun index member => ?_)
    (List.countP_congr fun index _ => ?_)
  · rw [bit, if_pos (List.mem_range.mp member)]
  · rw [Function.comp_apply, bit, if_neg (Nat.not_lt.mpr (Nat.le_add_right width index)),
      Nat.add_sub_cancel_left]

/-- Above a number no bit is set. -/
theorem setBits_of_lt {width number : Nat} (small : number < 2 ^ width) (rest : Nat) :
    setBits (width + rest) number = setBits width number := by
  have none_above : setBits rest 0 = 0 := List.countP_eq_zero.mpr (by simp)
  have split := setBits_add width rest 0 small
  rwa [Nat.mul_zero, Nat.add_zero, none_above, Nat.add_zero] at split

/-- All widths that a number fits count the same bits. -/
theorem setBits_eq_of_lt {first second number : Nat} (small : number < 2 ^ first)
    (small' : number < 2 ^ second) : setBits first number = setBits second number := by
  rw [← setBits_of_lt small second, Nat.add_comm, setBits_of_lt small' first]

/-- The set bits of digits are those of the number that they make up. -/
theorem sum_setBits_digits {digits : List Nat} (each : ∀ digit ∈ digits, digit < 2 ^ 64) :
    (digits.map (setBits 64)).sum =
      setBits (64 * digits.length) (Nat.ofDigits (2 ^ 64) digits) := by
  induction digits with
  | nil => rfl
  | cons digit rest inductionHypothesis =>
    rw [List.forall_mem_cons] at each
    rw [List.map_cons, List.sum_cons, inductionHypothesis each.2, List.length_cons,
      Nat.mul_succ, Nat.add_comm (64 * rest.length), Nat.ofDigits_cons,
      setBits_add 64 _ _ each.1]

/-- Counted digit by digit, every bit of a number that fits a width is counted once. -/
theorem population_eq_setBits {width number : Nat} (small : number < 2 ^ width) :
    population number = setBits width number := by
  have each (digit : Nat) (member : digit ∈ Nat.digits (2 ^ 64) number) : digit < 2 ^ 64 :=
    Nat.digits_lt_base (by decide) member
  have whole : Nat.ofDigits (2 ^ 64) (Nat.digits (2 ^ 64) number) = number :=
    Nat.ofDigits_digits _ number
  have covered : number < 2 ^ (64 * (Nat.digits (2 ^ 64) number).length) := by
    rw [Nat.pow_mul]
    exact Nat.lt_base_pow_length_digits (by decide)
  rw [population, sum_setBits_digits each, whole]
  exact setBits_eq_of_lt covered small

theorem foldl_xor_eq (bit : Nat → Bool) (indices : List Nat) (start : Bool) :
    indices.foldl (fun odd index => odd ^^ bit index) start =
      (start ^^ decide (indices.countP bit % 2 = 1)) := by
  induction indices generalizing start with
  | nil => simp
  | cons index rest inductionHypothesis =>
    rw [List.foldl_cons, inductionHypothesis, List.countP_cons]
    cases bit index with
    | false => simp
    | true =>
      have flipped :
          decide ((rest.countP bit + 1) % 2 = 1) = !decide (rest.countP bit % 2 = 1) := by
        rw [← decide_not, decide_eq_decide]
        omega
      simp [flipped]

/-- The parity of a number is odd if it has an odd number of set bits. -/
theorem oddParity_eq {width number : Nat} (small : number < 2 ^ width) :
    Bits.oddParity number = decide (setBits width number % 2 = 1) := by
  rw [Bits.oddParity, foldl_xor_eq, Bool.false_xor,
    ← setBits_eq_of_lt Nat.lt_log2_self small]
  rfl

namespace Bits

/-! ### What an outcome shows -/

/-- The outcome is a pattern of a width that has these bits, and the same comes out in numbers. -/
def Shows (outcome : Except BitsError Bits) (computed : Except Fault Figures) (width : Nat)
    (bit : Nat → Option Bool) : Prop :=
  ∃ bits, outcome = .ok bits ∧ computed = .ok bits.figures ∧ bits.width = width ∧
    ∀ index, bits.bit? index = if index < width then bit index else none

theorem bit?_of_lt {bits : Bits} {index : Nat} (inside : index < bits.width) :
    bits.bit? index = some (bits.value.getLsbD index) :=
  if_pos inside

theorem bit?_of_le {bits : Bits} {index : Nat} (outside : bits.width ≤ index) :
    bits.bit? index = none :=
  if_neg (Nat.not_lt.mpr outside)

theorem bit?_top (bits : Bits) : bits.bit? (bits.width - 1) = some bits.msb := by
  rw [bit?_of_lt (Nat.sub_one_lt_of_lt bits.positive), msb, BitVec.msb_eq_getLsbD_last]

theorem bit?_eq_true_iff {bits : Bits} {index : Nat} (inside : index < bits.width) :
    bits.bit? index = some true ↔ bits.value.getLsbD index = true := by
  rw [bit?_of_lt inside, Option.some.injEq]

theorem shows_of_ok {outcome : Except BitsError Bits} {computed : Except Fault Figures}
    {bit : Nat → Option Bool} (bits : Bits) (found : outcome = .ok bits)
    (same : computed = inNumbers (ofBits outcome))
    (each : ∀ index < bits.width, some (bits.value.getLsbD index) = bit index) :
    Shows outcome computed bits.width bit := by
  refine ⟨bits, found, ?_, rfl, fun index => ?_⟩
  · rw [same, found]
    rfl
  · rw [bit?]
    split
    case isTrue inside => exact each index inside
    case isFalse => rfl

/-! ### Slices -/

theorem shows_extract {bits : Bits} {low width : Nat} (positive : 0 < width)
    (inside : low + width ≤ bits.width) :
    Shows (bits.extract low width) (bits.figures.extract low width) width
      fun index => bits.bit? (low + index) := by
  have found : bits.extract low width =
      .ok ⟨width, positive, wrap width (bits.magnitude >>> low)⟩ := by
    rw [extract, dif_pos positive, if_pos inside]
  refine shows_of_ok _ found (Figures.extract_eq bits low width) fun index below => ?_
  have below : index < width := below
  rw [bit?_of_lt (by omega)]
  refine congrArg some ?_
  rw [wrap_eq_ofNat, BitVec.getLsbD_ofNat, Nat.testBit_shiftRight, decide_eq_true below,
    Bool.true_and]
  exact BitVec.testBit_toNat bits.value

/-- A slice is refused exactly if it has no bits or reaches past the top bit. -/
theorem extract_eq_error_iff (bits : Bits) (low width : Nat) (reason : BitsError) :
    bits.extract low width = .error reason ↔
      (width = 0 ∧ reason = .zeroWidth) ∨
      (0 < width ∧ bits.width < low + width ∧ reason = .outOfRange low width bits.width) := by
  unfold extract
  split
  case isTrue positive =>
    split
    case isTrue inside =>
      refine iff_of_false (fun refused => by cases refused) ?_
      rintro (⟨empty, _⟩ | ⟨_, outside, _⟩)
      · exact absurd empty (Nat.ne_of_gt positive)
      · exact absurd inside (Nat.not_le.mpr outside)
    case isFalse outside =>
      have empty : ¬ width = 0 := Nat.ne_of_gt positive
      rw [Except.error.injEq, eq_comm]
      simp [empty, positive, Nat.lt_of_not_le outside]
  case isFalse empty =>
    rw [Except.error.injEq, eq_comm]
    simp [Nat.eq_zero_of_not_pos empty]

/-! ### Wider patterns -/

theorem bit?_concat (high low : Bits) (index : Nat) :
    (high.concat low).bit? index =
      if index < low.width then low.bit? index else high.bit? (index - low.width) := by
  have width : (high.concat low).width = high.width + low.width := rfl
  by_cases inside : index < high.width + low.width
  · rw [bit?_of_lt (width ▸ inside), concat, BitVec.getLsbD_append]
    split
    case isTrue below => rw [bit?_of_lt below]
    case isFalse above => rw [bit?_of_lt (by omega)]
  · rw [bit?_of_le (by omega), if_neg (by omega), bit?_of_le (by omega)]

theorem shows_zeroExtend {bits : Bits} {width : Nat} (wider : bits.width ≤ width) :
    Shows (bits.zeroExtend width) (bits.figures.resize width .zeroExtend) width
      fun index => if index < bits.width then bits.bit? index else some false := by
  refine shows_of_ok _ (dif_pos wider) (Figures.resize_eq .zeroExtend bits width)
    fun index below => ?_
  have below : index < width := below
  rw [BitVec.getLsbD_setWidth, decide_eq_true below, Bool.true_and]
  split
  case isTrue inside => rw [bit?_of_lt inside]
  case isFalse above => rw [BitVec.getLsbD_of_ge _ _ (Nat.le_of_not_lt above)]

theorem shows_signExtend {bits : Bits} {width : Nat} (wider : bits.width ≤ width) :
    Shows (bits.signExtend width) (bits.figures.resize width .signExtend) width
      fun index => if index < bits.width then bits.bit? index else some bits.msb := by
  refine shows_of_ok _ (signExtend_eq_ok wider) (Figures.resize_eq .signExtend bits width)
    fun index below => ?_
  have below : index < width := below
  rw [BitVec.getLsbD_signExtend, decide_eq_true below, Bool.true_and]
  split
  case isTrue inside => rw [bit?_of_lt inside]
  case isFalse => rfl

/-! ### Bit by bit -/

theorem shows_zip {combine : {width : Nat} → BitVec width → BitVec width → BitVec width}
    {join : Bool → Bool → Bool} {left right : Bits} (operation : Binary)
    (same : right.width = left.width) (applied : operation.apply = zip combine)
    (each : ∀ {width : Nat} (first second : BitVec width) (index : Nat), index < width →
      (combine first second).getLsbD index = join (first.getLsbD index) (second.getLsbD index)) :
    Shows (operation.apply left right) (Figures.combine operation left.figures right.figures)
      left.width fun index => Option.map₂ join (left.bit? index) (right.bit? index) := by
  refine shows_of_ok ⟨left.width, left.positive, combine left.value (right.value.cast same)⟩ ?_
    (Figures.combine_eq operation left right) fun index inside => ?_
  · rw [applied]
    exact dif_pos same
  · have inside : index < left.width := inside
    rw [bit?_of_lt inside, bit?_of_lt (same ▸ inside), each _ _ index inside,
      BitVec.getLsbD_cast]
    rfl

theorem shows_not (bits : Bits) :
    Shows (.ok bits.not) (.ok bits.figures.complement) bits.width
      fun index => (bits.bit? index).map Bool.not := by
  refine shows_of_ok bits.not rfl (congrArg Except.ok (Figures.complement_eq bits))
    fun index inside => ?_
  have inside : index < bits.width := inside
  rw [bit?_of_lt inside, Bits.not, BitVec.getLsbD_not, decide_eq_true inside, Bool.true_and]
  rfl

/-! ### Reductions -/

/-- How many bits of a pattern are set. -/
def countSet (bits : Bits) : Nat :=
  (List.range bits.width).countP (bits.bit? · = some true)

theorem reduceAnd_eq (bits : Bits) :
    bits.reduceAnd = ofBool (decide (∀ index < bits.width, bits.bit? index = some true)) := by
  refine congrArg ofBool (Bool.eq_iff_iff.mpr ?_)
  rw [decide_eq_true_iff]
  refine (Element.holds_iff .allOnes bits).trans ?_
  refine ⟨fun full index inside => ?_, fun set => BitVec.eq_of_getLsbD_eq fun index inside => ?_⟩
  · rw [bit?_eq_true_iff inside, full]
    simpa [Element.pattern] using inside
  · rw [(bit?_eq_true_iff inside).mp (set index inside)]
    simpa [Element.pattern] using inside

theorem reduceOr_eq (bits : Bits) :
    bits.reduceOr = ofBool (decide (∃ index < bits.width, bits.bit? index = some true)) := by
  refine congrArg ofBool (Bool.eq_iff_iff.mpr ?_)
  rw [decide_eq_true_iff, Bool.not_eq_true', ← Bool.not_eq_true, isZero_iff, not_iff_comm]
  refine ⟨fun clear => BitVec.eq_of_getLsbD_eq fun index inside => ?_, ?_⟩
  · rw [BitVec.getLsbD_zero]
    exact Bool.eq_false_of_not_eq_true fun set =>
      clear ⟨index, inside, (bit?_eq_true_iff inside).mpr set⟩
  · rintro zero ⟨index, inside, set⟩
    rw [bit?_eq_true_iff inside, zero, BitVec.getLsbD_zero] at set
    cases set

theorem countSet_eq (bits : Bits) : bits.countSet = setBits bits.width bits.magnitude := by
  refine List.countP_congr fun index member => ?_
  rw [decide_eq_true_iff, bit?_eq_true_iff (List.mem_range.mp member), magnitude,
    BitVec.testBit_toNat]

theorem reduceXor_eq (bits : Bits) :
    bits.reduceXor = ofBool (decide (bits.countSet % 2 = 1)) := by
  rw [reduceXor, oddParity_eq bits.magnitude_lt, countSet_eq]

/-- A pattern has no more set bits than bits, so that their number takes no more room than its
width. -/
theorem countSet_le (bits : Bits) : bits.countSet ≤ bits.width :=
  List.countP_le_length.trans_eq List.length_range

/-! ### All operations -/

/-- The operations on patterns do to single bits what they are named for. Slices are refused
exactly if they are empty or reach past the top bit, and a slice of a slice is a slice. Numbers
that are shifted, masked and filled have these bits too; a comparison with the mask, a test for
zero and a count of the set bits of each digit are the conjunction, the disjunction and the
parity of all bits. -/
theorem operations_bitwise (left right : Bits) :
    (∀ low width,
      (0 < width → low + width ≤ left.width →
        Shows (left.extract low width) (left.figures.extract low width) width
          fun index => left.bit? (low + index)) ∧
      (∀ reason, left.extract low width = .error reason ↔
        (width = 0 ∧ reason = .zeroWidth) ∨
        (0 < width ∧ left.width < low + width ∧ reason = .outOfRange low width left.width)) ∧
      ∀ next taken inner outer, left.extract low width = .ok inner →
        inner.extract next taken = .ok outer → left.extract (low + next) taken = .ok outer) ∧
    ((left.concat right).width = left.width + right.width ∧
      (∀ index, (left.concat right).bit? index =
        if index < right.width then right.bit? index else left.bit? (index - right.width)) ∧
      (left.width + right.width ≤ largestWidth →
        left.figures.concat right.figures = .ok (left.concat right).figures)) ∧
    (left.bit? (left.width - 1) = some left.msb ∧
      ∀ width, left.width ≤ width →
        Shows (left.zeroExtend width) (left.figures.resize width .zeroExtend) width
          (fun index => if index < left.width then left.bit? index else some false) ∧
        Shows (left.signExtend width) (left.figures.resize width .signExtend) width
          fun index => if index < left.width then left.bit? index else some left.msb) ∧
    (right.width = left.width →
      Shows (left.and right) (Figures.combine .and left.figures right.figures) left.width
        (fun index => Option.map₂ Bool.and (left.bit? index) (right.bit? index)) ∧
      Shows (left.or right) (Figures.combine .or left.figures right.figures) left.width
        (fun index => Option.map₂ Bool.or (left.bit? index) (right.bit? index)) ∧
      Shows (left.xor right) (Figures.combine .xor left.figures right.figures) left.width
        fun index => Option.map₂ Bool.xor (left.bit? index) (right.bit? index)) ∧
    Shows (.ok left.not) (.ok left.figures.complement) left.width
      (fun index => (left.bit? index).map Bool.not) ∧
    (left.reduceAnd = ofBool (decide (∀ index < left.width, left.bit? index = some true)) ∧
      left.reduceAnd.figures = .ofBool (left.magnitude == Figures.mask left.width)) ∧
    (left.reduceOr = ofBool (decide (∃ index < left.width, left.bit? index = some true)) ∧
      left.reduceOr.figures = .ofBool (left.magnitude != 0)) ∧
    (left.reduceXor = ofBool (decide (left.countSet % 2 = 1)) ∧
      left.reduceXor.figures = .ofBool (population left.magnitude % 2 == 1) ∧
      population left.magnitude = left.countSet ∧ left.countSet ≤ left.width) := by
  have counted : population left.magnitude = left.countSet := by
    rw [population_eq_setBits left.magnitude_lt, countSet_eq]
  refine ⟨fun low width => ⟨shows_extract, left.extract_eq_error_iff low width,
      fun next taken inner outer => extract_extract⟩,
    ⟨rfl, bit?_concat left right, Figures.concat_eq⟩,
    ⟨left.bit?_top, fun width wider => ⟨shows_zeroExtend wider, shows_signExtend wider⟩⟩,
    fun same => ⟨?_, ?_, ?_⟩, left.shows_not,
    ⟨left.reduceAnd_eq, left.figures_reduceAnd⟩, ⟨left.reduceOr_eq, figures_ofBool _⟩,
    left.reduceXor_eq, ?_, counted, left.countSet_le⟩
  · exact shows_zip .and same rfl fun _ _ _ _ => BitVec.getLsbD_and
  · exact shows_zip .or same rfl fun _ _ _ _ => BitVec.getLsbD_or
  · exact shows_zip .xor same rfl fun _ _ _ _ => BitVec.getLsbD_xor
  · rw [reduceXor_eq, figures_ofBool, counted]
    rfl

/-- A pattern of sixty-six bits with three of them set, one in its first digit at the bottom, one at
the top of that digit and one in the next digit. The slice across the digits is a slice of a
slice, the top bit is repeated, and three is odd. -/
theorem operations_bitwise_acrossDigits :
    let long : Bits := ⟨66, by decide, 0x28000000000000001#66⟩
    let short : Bits := ⟨66, by decide, 3#66⟩
    (∃ slice, long.extract 63 3 = .ok slice ∧ long.figures.extract 63 3 = .ok slice.figures ∧
      slice.bit? 0 = long.bit? 63 ∧ slice.bit? 2 = long.bit? 65 ∧ slice.bit? 3 = none) ∧
    long.extract (3 + 60) 3 = long.extract 63 3 ∧
    long.extract 4294967295 2 = .error (.outOfRange 4294967295 2 66) ∧
    long.figures.concat short.figures = .ok (long.concat short).figures ∧
    (∃ extended, long.signExtend 70 = .ok extended ∧ extended.bit? 69 = some true) ∧
    (∃ both, long.and short = .ok both ∧ both.bit? 0 = some true ∧ both.bit? 1 = some false) ∧
    long.countSet = 3 ∧ long.reduceXor = ofBool true := by
  intro long short
  obtain ⟨slices, ⟨_, _, joined⟩, ⟨_, widened⟩, combined, _, _, _, odd, _⟩ :=
    operations_bitwise long short
  obtain ⟨slice, found, computed, _, bit⟩ := (slices 63 3).1 (by decide) (by decide)
  have again := (slices 3 63).2.2 60 3 ⟨63, by decide, 0x5000000000000000#63⟩
    ⟨3, by decide, 5#3⟩ (by decide) (by decide)
  have direct := (slices 63 3).2.2 0 3 ⟨3, by decide, 5#3⟩ ⟨3, by decide, 5#3⟩ (by decide)
    (by decide)
  obtain ⟨extended, wide, _, _, fill⟩ := (widened 70 (by decide)).2
  obtain ⟨both, joint, _, _, meet⟩ := (combined rfl).1
  have three : long.countSet = 3 := by decide
  refine ⟨⟨slice, found, computed, bit 0, bit 2, bit 3⟩, again.trans direct.symm,
    ((slices 4294967295 2).2.1 _).mpr (.inr (by decide)), joined (by decide),
    ⟨extended, wide, (fill 69).trans (by decide)⟩,
    ⟨both, joint, (meet 0).trans (by decide), (meet 1).trans (by decide)⟩, three, ?_⟩
  rw [odd, three]
  rfl

end Bits

end BitGraph
