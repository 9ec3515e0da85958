/-
This file proves that exactly the literals are read, and that reading undoes printing. A
literal is, underscores apart, at most one plus sign and then one or more digits; its
characters are counted for the width, and its digits can only be as large as that count
allows, so that nothing else about a literal is ever refused. Written digits stand at
fixed places, so patterns that are written alike are the same.
-/

import BitGraph.Proofs.Bits.Unchecked
import BitGraph.Proofs.Numerals

namespace BitGraph.Bits

open Decoded (ofBits)
open Numeral (Denotes smallDigits capitalDigits read?_eq_some_iff read?_toDigits toDigits_inj)

/-! ### The grammar -/

/-- A text without underscores is a literal with these digits. -/
def IsLiteral (base : Nat) (body : List Char) (digits : List Nat) : Prop :=
  digits ≠ [] ∧ ∃ sign characters, body = sign ++ characters ∧ (sign = [] ∨ sign = ['+']) ∧
    List.Forall₂ (Denotes base) characters digits

section Grammar

variable {base : Nat} (small : base ≤ 16)
include small

theorem read?_plus (rest : List Char) : Numeral.read? base ('+' :: rest) = none := by
  rw [show Numeral.read? base ('+' :: rest) = Numeral.accumulate base 0 ('+' :: rest) from rfl,
    Numeral.accumulate, Numeral.digit?_plus small, Option.bind_none]

/-- One plus sign is dropped, and since a plus sign is no digit, a second one is not. -/
theorem read?_unsigned (body : List Char) (value : Nat) :
    Numeral.read? base (unsigned body) = some value ↔
      ∃ sign characters, body = sign ++ characters ∧ (sign = [] ∨ sign = ['+']) ∧
        Numeral.read? base characters = some value := by
  have plus (rest : List Char) : Numeral.read? base ('+' :: rest) ≠ some value := by
    rw [read?_plus small]
    simp
  constructor
  · fun_cases unsigned body with
    | case1 rest => exact fun read => absurd read (plus _)
    | case2 rest _ => exact fun read => ⟨['+'], rest, rfl, .inr rfl, read⟩
    | case3 body _ _ => exact fun read => ⟨[], _, rfl, .inl rfl, read⟩
  · rintro ⟨sign, characters, rfl, rfl | rfl, read⟩
    · rw [List.nil_append, unsigned]
      · exact read
      · rintro rest rfl
        exact plus _ read
      · rintro rest rfl
        exact plus _ read
    · rw [List.singleton_append, unsigned]
      · exact read
      · rintro rest rfl
        exact plus _ read

theorem read?_unsigned_iff (body : List Char) (value : Nat) :
    Numeral.read? base (unsigned body) = some value ↔
      ∃ digits, IsLiteral base body digits ∧ Nat.ofDigits base digits.reverse = value := by
  rw [read?_unsigned small]
  constructor
  · rintro ⟨sign, characters, split, signed, read⟩
    obtain ⟨digits, some, each, same⟩ := (read?_eq_some_iff small _ _).mp read
    exact ⟨digits, ⟨some, sign, characters, split, signed, each⟩, same⟩
  · rintro ⟨digits, ⟨some, sign, characters, split, signed, each⟩, same⟩
    exact ⟨sign, characters, split, signed,
      (read?_eq_some_iff small _ _).mpr ⟨digits, some, each, same⟩⟩

end Grammar

/-! ### Widths -/

/-- The digits of a literal leave its characters, of which there are at least as many, room. -/
theorem IsLiteral.value_lt {base digitWidth : Nat} {body : List Char} {digits : List Nat}
    (literal : IsLiteral base body digits) (several : 0 < digitWidth)
    (power : base = 2 ^ digitWidth) :
    0 < body.length * digitWidth ∧
      Nat.ofDigits base digits.reverse < 2 ^ (body.length * digitWidth) := by
  obtain ⟨some, sign, characters, rfl, _, each⟩ := literal
  have length : digits.length ≤ (sign ++ characters).length := by
    rw [List.length_append, each.length_eq]
    exact Nat.le_add_left _ _
  have below : ∀ digit ∈ digits.reverse, digit < base := by
    intro digit member
    obtain ⟨_, _, denotes⟩ := exists_of_forall₂ each.flip (List.mem_reverse.mp member)
    exact denotes.1
  refine ⟨Nat.mul_pos ((List.length_pos_of_ne_nil some).trans_le length) several, ?_⟩
  calc Nat.ofDigits base digits.reverse
      < base ^ digits.reverse.length :=
        Nat.ofDigits_lt_base_pow_length (power ▸ Nat.one_lt_two_pow several.ne') below
    _ = 2 ^ (digitWidth * digits.length) := by rw [List.length_reverse, power, Nat.pow_mul]
    _ ≤ 2 ^ ((sign ++ characters).length * digitWidth) := by
        rw [Nat.mul_comm]
        exact Nat.pow_le_pow_right Nat.two_pos (Nat.mul_le_mul_right _ length)

/-- The characters of written digits, the sign among them, take one byte each. -/
theorem utf8Size_of_denotes {base : Nat} {character : Char} {digit : Nat}
    (denotes : Denotes base character digit) : character.utf8Size = 1 := by
  have rows : ∀ character ∈ smallDigits ++ capitalDigits, character.val ≤ 127 := by
    simp [smallDigits, capitalDigits]
  exact Char.utf8Size_eq_one_iff.mpr (rows character denotes.mem_rows)

/-- It does not matter whether the characters of a literal are counted or its bytes. -/
theorem IsLiteral.utf8ByteSize_eq {base : Nat} {body : List Char} {digits : List Nat}
    (literal : IsLiteral base body digits) :
    (String.ofList body).utf8ByteSize = body.length := by
  obtain ⟨_, sign, characters, rfl, signed, each⟩ := literal
  have single : ∀ character ∈ sign ++ characters, character.utf8Size = 1 := by
    intro character member
    rcases List.mem_append.mp member with inSign | inDigits
    · rcases signed with rfl | rfl
      · cases inSign
      · cases List.mem_singleton.mp inSign
        decide
    · obtain ⟨_, _, denotes⟩ := exists_of_forall₂ each inDigits
      exact utf8Size_of_denotes denotes
  rw [String.utf8ByteSize_ofList]
  generalize sign ++ characters = body at single ⊢
  induction body with
  | nil => rfl
  | cons character rest inductionHypothesis =>
    rw [List.forall_mem_cons] at single
    rw [String.utf8Len_cons, inductionHypothesis single.2, single.1, List.length_cons]

/-! ### Reading -/

/-- Literals of a base are read by their grammar. Exactly the texts that are a literal without
their underscores are read; then the characters, the sign included, are counted for the width, and
the magnitude is the value of the digits. All other texts are refused as no literal. If the width
takes at most 32 bits, the same comes out where it is computed in 32 bits. -/
def ReadsLiterals (base digitWidth : Nat) (read : String → Except BitsError Bits) : Prop :=
  ∀ text,
    ((∃ bits, read text = .ok bits) ↔ ∃ digits, IsLiteral base (literalBody text) digits) ∧
    (∀ bits digits, read text = .ok bits → IsLiteral base (literalBody text) digits →
      bits.width = (literalBody text).length * digitWidth ∧
      bits.magnitude = Nat.ofDigits base digits.reverse ∧
      (String.ofList (literalBody text)).utf8ByteSize = (literalBody text).length) ∧
    (∀ reason, read text = .error reason → reason = .malformedLiteral text) ∧
    ((literalBody text).length * digitWidth ≤ largestWidth →
      Figures.literal base digitWidth text = inNumbers (ofBits (read text)))

section Reading

variable {base digitWidth : Nat} (several : 0 < digitWidth) (power : base = 2 ^ digitWidth)
  (small : base ≤ 16)
include several power small

theorem ofLiteral_of_isLiteral {text : String} {digits : List Nat}
    (literal : IsLiteral base (literalBody text) digits) :
    ∃ bits, ofLiteral base digitWidth text = .ok bits ∧
      bits.width = (literalBody text).length * digitWidth ∧
      bits.magnitude = Nat.ofDigits base digits.reverse := by
  have read := (read?_unsigned_iff small _ _).mpr ⟨digits, literal, rfl⟩
  obtain ⟨positive, fit⟩ := literal.value_lt several power
  rw [← Nat.one_shiftLeft, ← fits_iff] at fit
  have built := ofMagnitude_of_fits positive fit
  obtain ⟨width, magnitude⟩ := ofMagnitude_eq_ok_iff.mp built
  refine ⟨_, ?_, width, magnitude⟩
  rw [ofLiteral, read]
  exact built

omit several power in
theorem ofLiteral_of_not_isLiteral {text : String}
    (malformed : ¬ ∃ digits, IsLiteral base (literalBody text) digits) :
    ofLiteral base digitWidth text = .error (.malformedLiteral text) := by
  rw [ofLiteral]
  cases read : Numeral.read? base (unsigned (literalBody text)) with
  | none => rfl
  | some magnitude =>
    obtain ⟨digits, literal, _⟩ := (read?_unsigned_iff small _ _).mp read
    exact absurd ⟨digits, literal⟩ malformed

theorem readsLiterals_ofLiteral : ReadsLiterals base digitWidth (ofLiteral base digitWidth) := by
  intro text
  have outcome (digits : List Nat) (literal : IsLiteral base (literalBody text) digits) :=
    ofLiteral_of_isLiteral several power small literal
  refine ⟨⟨?_, ?_⟩, ?_, ?_, fun fits => ?_⟩
  · rintro ⟨bits, read⟩
    by_contra malformed
    rw [ofLiteral_of_not_isLiteral small malformed] at read
    cases read
  · rintro ⟨digits, literal⟩
    obtain ⟨bits, read, _⟩ := outcome digits literal
    exact ⟨bits, read⟩
  · intro bits digits read literal
    obtain ⟨_, again, width, magnitude⟩ := outcome digits literal
    cases read.symm.trans again
    exact ⟨width, magnitude, literal.utf8ByteSize_eq⟩
  · intro reason refused
    by_cases literal : ∃ digits, IsLiteral base (literalBody text) digits
    · obtain ⟨digits, literal⟩ := literal
      obtain ⟨bits, read, _⟩ := outcome digits literal
      cases read.symm.trans refused
    · cases (ofLiteral_of_not_isLiteral small literal).symm.trans refused
      rfl
  · have short : (literalBody text).length < Numeral.wordBound :=
      Nat.lt_succ_of_le ((Nat.le_mul_of_pos_right _ several).trans fits)
    obtain ⟨found, computed, same⟩ := Figures.literal_eq_of_word base digitWidth
      ((Nat.mul_le_mul_right digitWidth (Nat.mod_le _ _)).trans fits)
    rw [computed, same short]

end Reading

/-! ### Round trips -/

/-- All bits of a pattern as binary digits, the top bit first. -/
def binaryDigits (bits : Bits) : List Char :=
  (List.range bits.width).reverse.map fun index =>
    if bits.bit? index = some true then '1' else '0'

/-- The bits of a number as digits make up its low part. -/
theorem ofDigits_testBit (number width : Nat) :
    Nat.ofDigits 2 ((List.range width).map fun index => (number.testBit index).toNat) =
      number % 2 ^ width := by
  induction width generalizing number with
  | zero => simp [Nat.mod_one]
  | succ width inductionHypothesis =>
    have above : (List.map Nat.succ (List.range width)).map
        (fun index => (number.testBit index).toNat) =
          (List.range width).map fun index => ((number / 2).testBit index).toNat := by
      rw [List.map_map]
      refine congrArg (List.map · _) (funext fun index => ?_)
      rw [Function.comp_apply, Nat.testBit_succ]
    rw [List.range_succ_eq_map, List.map_cons, above, Nat.ofDigits_cons, inductionHypothesis,
      Nat.pow_succ', Nat.mod_mul, Nat.testBit_zero]
    rcases Nat.mod_two_eq_zero_or_one number with even | odd
    · simp [even]
    · simp [odd]

theorem isLiteral_binaryDigits (bits : Bits) : IsLiteral 2 bits.binaryDigits
    ((List.range bits.width).reverse.map fun index => (bits.magnitude.testBit index).toNat) := by
  refine ⟨fun empty => ?_, [], bits.binaryDigits, rfl, .inl rfl, ?_⟩
  · have length := congrArg List.length empty
    rw [List.length_map, List.length_reverse, List.length_range] at length
    exact absurd length bits.positive.ne'
  · rw [binaryDigits, List.forall₂_map_left_iff, List.forall₂_map_right_iff, List.forall₂_same]
    intro index member
    have inside : index < bits.width := List.mem_range.mp (List.mem_reverse.mp member)
    have same : bits.value.getLsbD index = bits.magnitude.testBit index := rfl
    rw [bit?, if_pos inside, same]
    cases bits.magnitude.testBit index with
    | false => exact ⟨by decide, .inl rfl⟩
    | true => exact ⟨by decide, .inl rfl⟩

/-- Read as a binary literal, the binary digits of a pattern give it back, wherever underscores
stand between them. -/
theorem ofBinary_of_binaryDigits {bits : Bits} {text : String}
    (spelled : literalBody text = bits.binaryDigits) : ofBinary text = .ok bits := by
  have literal := bits.isLiteral_binaryDigits
  rw [← spelled] at literal
  obtain ⟨read, found, width, magnitude⟩ :=
    ofLiteral_of_isLiteral Nat.one_pos (show 2 = 2 ^ 1 from rfl) (by decide) literal
  rw [ofBinary, found]
  refine congrArg Except.ok (eq_of_width_of_magnitude ?_ ?_)
  · rw [width, spelled, binaryDigits, List.length_map, List.length_reverse, List.length_range,
      Nat.mul_one]
  · rw [magnitude, List.map_reverse, List.reverse_reverse, ofDigits_testBit]
    exact Nat.mod_eq_of_lt bits.magnitude_lt

/-- What stands behind the letter that announces the magnitude in the written form of a pattern. -/
def magnitudePart (text : String) : String :=
  String.ofList ((text.toList.dropWhile (· ≠ 'h')).drop 1)

theorem toList_render (bits : Bits) : bits.render.toList =
    Nat.toDigits 10 bits.width ++ '\'' :: 'h' :: Nat.toDigits 16 bits.magnitude := by
  simp [render, Numeral.write]

/-- No written digit is a mark that separates. -/
theorem ne_of_mem_toDigits {base value : Nat} {character : Char} (several : 1 < base)
    (small : base ≤ 16) (member : character ∈ Nat.toDigits base value) :
    character ≠ '\'' ∧ character ≠ 'h' ∧ character ≠ '_' := by
  obtain ⟨digit, denotes⟩ := Numeral.exists_denotes_of_mem_toDigits several small member
  have rows : ∀ character ∈ smallDigits ++ capitalDigits,
      character ≠ '\'' ∧ character ≠ 'h' ∧ character ≠ '_' := by
    simp [smallDigits, capitalDigits]
  exact rows character denotes.mem_rows

theorem magnitudePart_render (bits : Bits) :
    magnitudePart bits.render = String.ofList (Nat.toDigits 16 bits.magnitude) := by
  have apart : ∀ character ∈ Nat.toDigits 10 bits.width, decide (character ≠ 'h') = true :=
    fun character member =>
      decide_eq_true (ne_of_mem_toDigits (by decide) (by decide) member).2.1
  rw [magnitudePart, toList_render, List.dropWhile_append_of_pos apart]
  rfl

/-- The magnitude is read back from the written form of a pattern. -/
theorem ofHexadecimal_magnitudePart (bits : Bits) :
    ∃ read, ofHexadecimal (magnitudePart bits.render) = .ok read ∧
      read.magnitude = bits.magnitude := by
  have body : literalBody (magnitudePart bits.render) = Nat.toDigits 16 bits.magnitude := by
    rw [magnitudePart_render, literalBody, String.toList_ofList, List.filter_eq_self]
    exact fun character member =>
      decide_eq_true (ne_of_mem_toDigits (by decide) (by decide) member).2.2
  obtain ⟨digits, some, each, value⟩ :=
    (read?_eq_some_iff (show 16 ≤ 16 by decide) _ _).mp
      (read?_toDigits (by decide) (by decide) bits.magnitude)
  have literal : IsLiteral 16 (literalBody (magnitudePart bits.render)) digits :=
    body ▸ ⟨some, [], _, rfl, .inl rfl, each⟩
  obtain ⟨read, found, _, magnitude⟩ :=
    ofLiteral_of_isLiteral (by decide) (show 16 = 2 ^ 4 by decide) (by decide) literal
  exact ⟨read, found, magnitude.trans value⟩

/-- Patterns are told apart by their written forms. -/
theorem render_injective : Function.Injective render := by
  intro left right same
  have split := congrArg String.toList same
  rw [toList_render, toList_render] at split
  have width (bits : Bits) (rest : List Char) :
      (Nat.toDigits 10 bits.width ++ '\'' :: rest).takeWhile (· ≠ '\'') =
        Nat.toDigits 10 bits.width := by
    have apart : ∀ character ∈ Nat.toDigits 10 bits.width, decide (character ≠ '\'') = true :=
      fun character member =>
        decide_eq_true (ne_of_mem_toDigits (by decide) (by decide) member).1
    rw [List.takeWhile_append_of_pos apart, List.takeWhile_cons_of_neg (by simp),
      List.append_nil]
  have sameWidth : left.width = right.width := by
    have read := congrArg (List.takeWhile (· ≠ '\'')) split
    rwa [width, width, toDigits_inj (by decide) (by decide)] at read
  refine eq_of_width_of_magnitude sameWidth ?_
  rw [sameWidth, List.append_cancel_left_eq, List.cons.injEq, List.cons.injEq] at split
  exact (toDigits_inj (by decide) (by decide)).mp split.2.2

/-- Literals are read by their grammar and undo what is printed. Reading the binary digits of a
pattern gives it back, wherever underscores stand; reading the magnitude in its written form as a
hexadecimal literal gives the magnitude, and no two patterns are written alike. -/
theorem literals_read : ReadsLiterals 2 1 ofBinary ∧ ReadsLiterals 16 4 ofHexadecimal ∧
    (∀ (bits : Bits) (text : String), literalBody text = bits.binaryDigits →
      ofBinary text = .ok bits) ∧
    (∀ bits : Bits, ∃ read, ofHexadecimal (magnitudePart bits.render) = .ok read ∧
      read.magnitude = bits.magnitude) ∧
    Function.Injective render :=
  ⟨readsLiterals_ofLiteral (by decide) rfl (by decide),
    readsLiterals_ofLiteral (by decide) rfl (by decide),
    fun _ _ spelled => ofBinary_of_binaryDigits spelled, ofHexadecimal_magnitudePart,
    render_injective⟩

/-- A plus sign and underscores on both sides of it make a literal of five characters, and a second
sign makes none. The digits of five in four bits are read back from among underscores. -/
theorem literals_read_samples :
    (∃ bits, ofBinary "_+_10_11" = .ok bits ∧ bits.width = 5 ∧ bits.magnitude = 11) ∧
    ofBinary "++1" = .error (.malformedLiteral "++1") ∧
    (∃ bits, ofHexadecimal "0aF" = .ok bits ∧ bits.width = 12 ∧ bits.magnitude = 175) ∧
    literalBody "01__0_1" = binaryDigits ⟨4, by decide, 5#4⟩ ∧
    ofBinary "01__0_1" = .ok ⟨4, by decide, 5#4⟩ := by
  obtain ⟨binary, hexadecimal, digits, _⟩ := literals_read
  have signed : IsLiteral 2 (literalBody "_+_10_11") [1, 0, 1, 1] := by
    refine ⟨by decide, ['+'], ['1', '0', '1', '1'], by decide, .inr rfl, ?_⟩
    exact .cons ⟨by decide, .inl rfl⟩ <| .cons ⟨by decide, .inl rfl⟩ <|
      .cons ⟨by decide, .inl rfl⟩ <| .cons ⟨by decide, .inl rfl⟩ .nil
  have mixed : IsLiteral 16 (literalBody "0aF") [0, 10, 15] := by
    refine ⟨by decide, [], ['0', 'a', 'F'], by decide, .inl rfl, ?_⟩
    exact .cons ⟨by decide, .inl rfl⟩ <| .cons ⟨by decide, .inl rfl⟩ <|
      .cons ⟨by decide, .inr rfl⟩ .nil
  obtain ⟨first, read⟩ := (binary "_+_10_11").1.mpr ⟨_, signed⟩
  obtain ⟨firstWidth, firstMagnitude, _⟩ := (binary "_+_10_11").2.1 first _ read signed
  obtain ⟨second, read'⟩ := (hexadecimal "0aF").1.mpr ⟨_, mixed⟩
  obtain ⟨secondWidth, secondMagnitude, _⟩ := (hexadecimal "0aF").2.1 second _ read' mixed
  have spelled : literalBody "01__0_1" = binaryDigits ⟨4, by decide, 5#4⟩ := by decide
  exact ⟨⟨first, read, firstWidth, firstMagnitude⟩, by decide,
    ⟨second, read', secondWidth, secondMagnitude⟩, spelled, digits _ _ spelled⟩

end BitGraph.Bits
