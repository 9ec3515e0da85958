/-
This file proves that every pattern that can be obtained is canonical, without the
bound that a pattern carries. A recipe says how a pattern is obtained: from outside,
where it is checked, or by an operation on patterns obtained before. Computed in plain
numbers, where hardly any operation checks or masks what comes out, a recipe has the
outcome that it has on patterns, by induction on the recipe.
-/

import BitGraph.Proofs.Bits.Unchecked

namespace BitGraph

open Decoded (ofBits)

/-- A way to obtain a pattern. -/
inductive Recipe where
  /-- Checked construction. -/
  | checked (width magnitude : Nat)
  | distinguished (element : Element) (width : Nat)
  | single (bit : Bool)
  | binary (text : String)
  | hexadecimal (text : String)
  /-- Read out of a form. -/
  | decoded (json : Json)
  | combined (operation : Bits.Binary) (left right : Recipe)
  | complement (source : Recipe)
  | resized (resizing : Bits.Resizing) (source : Recipe) (width : Nat)
  | slice (source : Recipe) (low width : Nat)
  | joined (high low : Recipe)
  | reduced (reduction : Bits.Reduction) (source : Recipe)

namespace Recipe

/-- What a recipe gives on patterns. -/
def run : Recipe → Decoded Bits
  | .checked width magnitude => ofBits (Bits.ofMagnitude width magnitude)
  | .distinguished element width => ofBits (element.value width)
  | .single bit => .ok (Bits.ofBool bit)
  | .binary text => ofBits (Bits.ofBinary text)
  | .hexadecimal text => ofBits (Bits.ofHexadecimal text)
  | .decoded json => Bits.decode json
  | .combined operation left right => do ofBits (operation.apply (← left.run) (← right.run))
  | .complement source => do return (← source.run).not
  | .resized resizing source width => do ofBits (resizing.apply (← source.run) width)
  | .slice source low width => do ofBits ((← source.run).extract low width)
  | .joined high low => do return (← high.run).concat (← low.run)
  | .reduced reduction source => do return reduction.apply (← source.run)

/-- What a recipe gives in numbers. -/
def compute : Recipe → Except Fault Figures
  | .checked width magnitude => Figures.checked width magnitude
  | .distinguished element width => Figures.element element width
  | .single bit => .ok (Figures.ofBool bit)
  | .binary text => Figures.literal 2 1 text
  | .hexadecimal text => Figures.literal 16 4 text
  | .decoded json => Figures.decode json
  | .combined operation left right => do
    Figures.combine operation (← left.compute) (← right.compute)
  | .complement source => do return (← source.compute).complement
  | .resized resizing source width => do (← source.compute).resize width resizing
  | .slice source low width => do (← source.compute).extract low width
  | .joined high low => do (← high.compute).concat (← low.compute)
  | .reduced reduction source => do return (← source.compute).reduce reduction

/-- No hexadecimal literal is written for more bits than a width in 32 bits counts, and no two
patterns are joined to more. -/
def Fits : Recipe → Prop
  | .checked _ _ | .distinguished _ _ | .single _ | .binary _ | .decoded _ => True
  | .hexadecimal text => (Bits.literalBody text).length * 4 ≤ largestWidth
  | .combined _ left right => left.Fits ∧ right.Fits
  | .complement source | .resized _ source _ | .slice source _ _ | .reduced _ source => source.Fits
  | .joined high low => (high.Fits ∧ low.Fits) ∧
      ∀ first second, high.compute = .ok first → low.compute = .ok second →
        first.width + second.width ≤ largestWidth

/-- No binary literal has more digits than a width in 32 bits counts. -/
def Short : Recipe → Prop
  | .checked _ _ | .distinguished _ _ | .single _ | .hexadecimal _ | .decoded _ => True
  | .binary text => (Bits.literalBody text).length ≤ largestWidth
  | .combined _ left right | .joined left right => left.Short ∧ right.Short
  | .complement source | .resized _ source _ | .slice source _ _ | .reduced _ source =>
    source.Short

/-- What is computed in numbers is some outcome on patterns, and the expected one as long as the
recipe is short. -/
def Follows (short : Prop) (computed : Except Fault Figures) (expected : Decoded Bits) : Prop :=
  ∃ outcome, computed = inNumbers outcome ∧ (short → outcome = expected)

section Follows

variable {short shorter : Prop} {computed : Except Fault Figures} {expected : Decoded Bits}

theorem follows_of_eq (same : computed = inNumbers expected) : Follows short computed expected :=
  ⟨expected, same, fun _ => rfl⟩

theorem Follows.mono (follows : Follows short computed expected) (fewer : shorter → short) :
    Follows shorter computed expected := by
  obtain ⟨outcome, same, run⟩ := follows
  exact ⟨outcome, same, run ∘ fewer⟩

/-- What is done with an outcome follows if each pattern is followed. -/
theorem Follows.bind (follows : Follows short computed expected)
    {compute : Figures → Except Fault Figures} {next : Bits → Decoded Bits}
    (each : ∀ bits, computed = .ok bits.figures →
      Follows short (compute bits.figures) (next bits)) :
    Follows short (computed.bind compute) (expected.bind next) := by
  obtain ⟨outcome, rfl, run⟩ := follows
  cases outcome with
  | error reason =>
    refine ⟨.error reason, rfl, fun few => ?_⟩
    rw [← run few]
    rfl
  | ok bits =>
    obtain ⟨outcome, same, runNext⟩ := each bits rfl
    refine ⟨outcome, same, fun few => ?_⟩
    rw [← run few]
    exact runNext few

end Follows

/-- In numbers a recipe computes what it gives on patterns, unless the digits of an overlong binary
literal were counted wrong; even then it computes what some outcome on patterns is. -/
theorem compute_follows (recipe : Recipe) (fits : recipe.Fits) :
    Follows recipe.Short recipe.compute recipe.run := by
  induction recipe with
  | checked width magnitude => exact follows_of_eq (Figures.checked_eq width magnitude)
  | distinguished element width => exact follows_of_eq (Figures.element_eq element width)
  | single bit =>
    exact ⟨.ok (.ofBool bit), congrArg Except.ok (Bits.figures_ofBool bit).symm, fun _ => rfl⟩
  | binary text =>
    -- The count may start again from zero, but it stays a width, and what is read has to fit it.
    have counted : (Bits.literalBody text).length % Numeral.wordBound * 1 ≤ largestWidth :=
      (Nat.mul_one _).trans_le (Nat.le_of_lt_succ (Nat.mod_lt _ (by decide)))
    obtain ⟨outcome, read, short⟩ := Figures.literal_eq_of_word 2 1 counted
    exact ⟨ofBits outcome, read, fun few => congrArg ofBits (short (Nat.lt_succ_of_le few))⟩
  | hexadecimal text =>
    have few : (Bits.literalBody text).length < Numeral.wordBound :=
      Nat.lt_succ_of_le ((Nat.le_mul_of_pos_right _ (by decide)).trans fits)
    obtain ⟨outcome, read, short⟩ := Figures.literal_eq_of_word 16 4
      ((Nat.mul_le_mul_right 4 (Nat.mod_le _ _)).trans fits)
    exact ⟨ofBits outcome, read, fun _ => congrArg ofBits (short few)⟩
  | decoded json => exact follows_of_eq (Figures.decode_eq json)
  | combined operation left right leftHypothesis rightHypothesis =>
    refine ((leftHypothesis fits.1).mono And.left).bind fun first _ => ?_
    refine ((rightHypothesis fits.2).mono And.right).bind fun second _ => ?_
    exact follows_of_eq (Figures.combine_eq operation first second)
  | complement source inductionHypothesis =>
    refine (inductionHypothesis fits).bind fun bits _ => follows_of_eq ?_
    exact congrArg Except.ok (Figures.complement_eq bits)
  | resized resizing source width inductionHypothesis =>
    refine (inductionHypothesis fits).bind fun bits _ => follows_of_eq ?_
    exact Figures.resize_eq resizing bits width
  | slice source low width inductionHypothesis =>
    refine (inductionHypothesis fits).bind fun bits _ => follows_of_eq ?_
    exact Figures.extract_eq bits low width
  | joined high low highHypothesis lowHypothesis =>
    obtain ⟨⟨highFits, lowFits⟩, small⟩ := fits
    refine ((highHypothesis highFits).mono And.left).bind fun first highComputed => ?_
    refine ((lowHypothesis lowFits).mono And.right).bind fun second lowComputed => ?_
    exact follows_of_eq (Figures.concat_eq (small _ _ highComputed lowComputed))
  | reduced reduction source inductionHypothesis =>
    refine (inductionHypothesis fits).bind fun bits _ => follows_of_eq ?_
    exact congrArg Except.ok (Figures.reduce_eq reduction bits)

theorem compute_eq_run {recipe : Recipe} (fits : recipe.Fits) (short : recipe.Short) :
    recipe.compute = inNumbers recipe.run := by
  obtain ⟨outcome, computed, same⟩ := recipe.compute_follows fits
  rw [computed, same short]

/-- The numbers that a recipe computes are those of a pattern. -/
theorem exists_pattern {recipe : Recipe} (fits : recipe.Fits) {figures : Figures}
    (computed : recipe.compute = .ok figures) : ∃ bits : Bits, bits.figures = figures := by
  obtain ⟨outcome, same, _⟩ := recipe.compute_follows fits
  rw [same] at computed
  cases outcome with
  | error reason => cases computed
  | ok bits => exact ⟨bits, Except.ok.inj computed⟩

/-- Nothing on the way is negative or too wide: a recipe that gives nothing was refused. -/
theorem refused_of_error {recipe : Recipe} (fits : recipe.Fits) {fault : Fault}
    (failed : recipe.compute = .error fault) : ∃ reason, fault = .refused reason := by
  obtain ⟨outcome, same, _⟩ := recipe.compute_follows fits
  rw [same] at failed
  cases outcome with
  | error reason => exact ⟨reason, (Except.error.inj failed).symm⟩
  | ok bits => cases failed

end Recipe

/-! ### Canonical patterns -/

/-- Patterns of one width are equal exactly if they agree bit by bit. -/
theorem Bits.eq_iff_bit?_eq {left right : Bits} (same : left.width = right.width) :
    left = right ↔ ∀ index < left.width, left.bit? index = right.bit? index := by
  refine ⟨fun equal _ _ => equal ▸ rfl, fun agree => ?_⟩
  obtain ⟨width, positive, value⟩ := left
  obtain ⟨_, positive', value'⟩ := right
  cases same
  refine congrArg (Bits.mk width positive) (BitVec.eq_of_getLsbD_eq fun index inside => ?_)
  have read := agree index inside
  rw [bit?, bit?, if_pos inside, if_pos inside] at read
  exact Option.some.inj read

/-- Numbers that a pattern is written in pass the check again. -/
theorem Figures.checked_figures (bits : Bits) :
    Figures.checked bits.width bits.magnitude = .ok bits.figures := by
  unfold Figures.checked
  rw [if_neg (Nat.ne_of_gt bits.positive),
    if_neg (Nat.not_lt.mpr (Nat.size_le.mpr bits.magnitude_lt))]
  rfl

/-- Every pattern that can be obtained is canonical, although hardly any operation checks or masks
what it computes. Nothing negative and no width too large comes up on the way; what comes out has
a bit and a magnitude that fits, so that checked construction would have passed it and its top
bit exists; and it is determined by its width and its bits. It is what the recipe gives on
patterns, whose bounds are part of them. -/
theorem patterns_canonical (recipe : Recipe) (fits : recipe.Fits) :
    (∀ fault, recipe.compute = .error fault → ∃ reason, fault = .refused reason) ∧
    (∀ figures, recipe.compute = .ok figures →
      0 < figures.width ∧ figures.magnitude < 2 ^ figures.width ∧
      Figures.checked figures.width figures.magnitude = .ok figures ∧
      ∃ bits : Bits, bits.figures = figures ∧ figures.msb = .ok bits.msb ∧
        ∀ index, figures.bit? index = bits.bit? index) ∧
    (∀ (other : Recipe), other.Fits → ∀ first second,
      recipe.compute = .ok first → other.compute = .ok second → first.width = second.width →
        (first = second ↔ ∀ index < first.width, first.bit? index = second.bit? index)) ∧
    (recipe.Short → recipe.compute = inNumbers recipe.run) := by
  refine ⟨fun fault => Recipe.refused_of_error fits, fun figures computed => ?_, ?_,
    Recipe.compute_eq_run fits⟩
  · obtain ⟨bits, rfl⟩ := Recipe.exists_pattern fits computed
    exact ⟨bits.positive, bits.magnitude_lt, Figures.checked_figures bits, bits, rfl,
      Figures.msb_eq bits, Figures.bit?_eq bits⟩
  · intro other otherFits first second computed otherComputed same
    obtain ⟨bits, rfl⟩ := Recipe.exists_pattern fits computed
    obtain ⟨bits', rfl⟩ := Recipe.exists_pattern otherFits otherComputed
    refine ⟨fun equal _ _ => equal ▸ rfl, fun agree => ?_⟩
    refine congrArg Bits.figures ((Bits.eq_iff_bit?_eq same).mpr fun index inside => ?_)
    rw [← Figures.bit?_eq, ← Figures.bit?_eq]
    exact agree index inside

/-- A set bit above three more is extended by its sign to seven set bits, which would have passed
the check. They agree bit by bit with the pattern of seven bits that is made without an extension,
and so they are that pattern. -/
theorem patterns_canonical_septet :
    let extended : Recipe :=
      .resized .signExtend (.joined (.single true) (.distinguished .allOnes 3)) 7
    let direct : Recipe := .distinguished .allOnes 7
    ∃ first second : Figures, extended.compute = .ok first ∧ direct.compute = .ok second ∧
      first.magnitude < 2 ^ 7 ∧ Figures.checked 7 first.magnitude = .ok first ∧
      (∀ index < 7, first.bit? index = second.bit? index) ∧ first = second ∧
      extended.compute = inNumbers extended.run := by
  intro extended direct
  have fits : extended.Fits := by
    refine ⟨⟨trivial, trivial⟩, fun first second single three => ?_⟩
    cases single
    cases three
    decide
  obtain ⟨_, canonical, determined, ran⟩ := patterns_canonical extended fits
  obtain ⟨_, below, passes, _⟩ := canonical ⟨7, 127⟩ rfl
  have agree := determined direct trivial ⟨7, 127⟩ ⟨7, 127⟩ rfl rfl rfl
  exact ⟨⟨7, 127⟩, ⟨7, 127⟩, rfl, rfl, below, passes, agree.mp rfl, rfl,
    ran ⟨trivial, trivial⟩⟩

end BitGraph
