/-
This file proves that numerals are read by positional notation and that written numerals
are read back. The digits of a base of at most sixteen are found in two rows of
characters, which differ in the case of the letters; a numeral is a run of them, and its
value is theirs to the base, the first digit counting most.
-/

import BitGraph.Numeral
import BitGraph.Proofs.Lists

namespace BitGraph.Numeral

/-! ### Digits -/

/-- The digits below sixteen, with small letters. -/
def smallDigits : List Char :=
  ['0', '1', '2', '3', '4', '5', '6', '7', '8', '9', 'a', 'b', 'c', 'd', 'e', 'f']

/-- The digits below sixteen, with capital letters. -/
def capitalDigits : List Char :=
  ['0', '1', '2', '3', '4', '5', '6', '7', '8', '9', 'A', 'B', 'C', 'D', 'E', 'F']

/-- A character stands for a digit of a base of at most sixteen. -/
def Denotes (base : Nat) (character : Char) (digit : Nat) : Prop :=
  digit < base ∧ (smallDigits[digit]? = some character ∨ capitalDigits[digit]? = some character)

/-- A digit stands in one of the rows. -/
theorem Denotes.mem_rows {base : Nat} {character : Char} {digit : Nat}
    (denotes : Denotes base character digit) : character ∈ smallDigits ++ capitalDigits :=
  List.mem_append.mpr (denotes.2.imp List.mem_of_getElem? List.mem_of_getElem?)

theorem digit?_smallDigits : ∀ digit < 16, (smallDigits[digit]?.bind (digit? 16)) = some digit := by
  decide

theorem digit?_capitalDigits : ∀ digit < 16,
    (capitalDigits[digit]?.bind (digit? 16)) = some digit := by
  decide

theorem smallDigits_figure : ∀ digit < 10,
    smallDigits[digit]? = some (Char.ofNat (digit + '0'.toNat)) := by
  decide

theorem smallDigits_letter : ∀ digit < 6,
    smallDigits[digit + 10]? = some (Char.ofNat (digit + 'a'.toNat)) := by
  decide

theorem capitalDigits_letter : ∀ digit < 6,
    capitalDigits[digit + 10]? = some (Char.ofNat (digit + 'A'.toNat)) := by
  decide

section Digit

variable {base : Nat} (small : base ≤ 16)
include small

theorem digit?_eq_filter (character : Char) :
    digit? base character = (digit? 16 character).filter (· < base) := by
  rw [digit?, digit?, Option.filter_filter]
  refine congrArg (Option.filter · _) (funext fun digit => ?_)
  rw [← Bool.decide_and, decide_eq_decide]
  omega

/-- The rows of digits say what a character stands for. -/
theorem digit?_eq_some_iff (character : Char) (digit : Nat) :
    digit? base character = some digit ↔ Denotes base character digit := by
  constructor
  · intro read
    rw [digit?, Option.filter_eq_some_iff, decide_eq_true_iff] at read
    obtain ⟨value, below⟩ := read
    refine ⟨below, ?_⟩
    have place {first : Char} (least : first ≤ character) :
        Char.ofNat (character.toNat - first.toNat + first.toNat) = character := by
      rw [Nat.sub_add_cancel (show first.toNat ≤ character.toNat from least), Char.ofNat_toNat]
    split at value
    case isTrue figure =>
      cases value
      have last : character.toNat ≤ 57 := figure.2
      have row := smallDigits_figure (character.toNat - 48) (by omega)
      exact .inl (row.trans (congrArg some (place figure.1)))
    case isFalse =>
      split at value
      case isTrue letter =>
        cases value
        rw [smallDigits_letter _ (by omega), place letter.1]
        exact .inl rfl
      case isFalse =>
        split at value
        case isTrue letter =>
          cases value
          rw [capitalDigits_letter _ (by omega), place letter.1]
          exact .inr rfl
        case isFalse => cases value
  · rintro ⟨below, row⟩
    rw [digit?_eq_filter small, Option.filter_eq_some_iff, decide_eq_true_iff]
    refine ⟨?_, below⟩
    rcases row with found | found
    · have read := digit?_smallDigits digit (by omega)
      rwa [found, Option.bind_some] at read
    · have read := digit?_capitalDigits digit (by omega)
      rwa [found, Option.bind_some] at read

theorem digit?_plus : digit? base '+' = none := by
  rw [digit?_eq_filter small]
  rfl

theorem digit?_digitChar {digit : Nat} (below : digit < base) :
    digit? base (Nat.digitChar digit) = some digit := by
  have same : ∀ digit < 16, smallDigits[digit]? = some (Nat.digitChar digit) := by decide
  exact (digit?_eq_some_iff small _ _).mpr ⟨below, .inl (same digit (by omega))⟩

end Digit

/-! ### Positional notation -/

/-- Reading on carries the value that was read so far on. -/
theorem accumulate_append (base value : Nat) (first second : List Char) :
    accumulate base value (first ++ second) =
      (accumulate base value first).bind fun value => accumulate base value second := by
  induction first generalizing value with
  | nil => rfl
  | cons character rest inductionHypothesis =>
    rw [List.cons_append, accumulate, accumulate, Option.bind_assoc]
    exact Option.bind_congr fun digit _ => inductionHypothesis _

section Reading

variable {base : Nat} (small : base ≤ 16)
include small

/-- What is read is the value of the digits behind the value that was read before. -/
theorem accumulate_eq_some_iff (start value : Nat) (characters : List Char) :
    accumulate base start characters = some value ↔
      ∃ digits, List.Forall₂ (Denotes base) characters digits ∧
        digits.foldl (fun value digit => value * base + digit) start = value := by
  induction characters generalizing start with
  | nil => simp [accumulate]
  | cons character rest inductionHypothesis =>
    rw [accumulate, Option.bind_eq_some_iff]
    constructor
    · rintro ⟨digit, found, read⟩
      obtain ⟨digits, each, same⟩ := (inductionHypothesis _).mp read
      exact ⟨digit :: digits, .cons ((digit?_eq_some_iff small _ _).mp found) each, same⟩
    · rintro ⟨_, each, same⟩
      cases each with
      | cons here each =>
        exact ⟨_, (digit?_eq_some_iff small _ _).mpr here,
          (inductionHypothesis _).mpr ⟨_, each, same⟩⟩

/-- A numeral is a non-empty run of digits, and its value is theirs to the base. -/
theorem read?_eq_some_iff (characters : List Char) (value : Nat) :
    read? base characters = some value ↔
      ∃ digits, digits ≠ [] ∧ List.Forall₂ (Denotes base) characters digits ∧
        Nat.ofDigits base digits.reverse = value := by
  have positional (digits : List Nat) :
      digits.foldl (fun value digit => value * base + digit) 0 =
        Nat.ofDigits base digits.reverse := by
    rw [Nat.ofDigits_eq_foldr, List.foldr_reverse]
    refine congrArg (List.foldl · 0 digits) (funext₂ fun value digit => ?_)
    rw [Nat.cast_id, Nat.mul_comm, Nat.add_comm]
  cases characters with
  | nil =>
    refine iff_of_false (by simp [read?]) ?_
    rintro ⟨digits, some, each, _⟩
    exact some (List.forall₂_nil_left_iff.mp each)
  | cons character rest =>
    rw [show read? base (character :: rest) = accumulate base 0 (character :: rest) from rfl,
      accumulate_eq_some_iff small]
    refine exists_congr fun digits => ?_
    rw [positional]
    refine (and_iff_right_of_imp ?_).symm
    rintro ⟨each, _⟩ rfl
    cases each

end Reading

/-! ### Written numerals -/

section Writing

variable {base : Nat} (several : 1 < base) (small : base ≤ 16)
include several small

/-- A written numeral is read back. -/
theorem read?_toDigits (value : Nat) : read? base (Nat.toDigits base value) = some value := by
  have accumulated : accumulate base 0 (Nat.toDigits base value) = some value := by
    induction value using Nat.strongRecOn with
    | ind value inductionHypothesis =>
      rw [Nat.toDigits_eq_if several]
      split
      case isTrue below =>
        rw [accumulate, digit?_digitChar small below, Option.bind_some, Nat.zero_mul,
          Nat.zero_add]
        rfl
      case isFalse above =>
        -- The last digit comes behind the numeral of what is left of the value without it.
        have shorter : value / base < value := Nat.div_lt_self (by omega) several
        have last : value % base < base := Nat.mod_lt _ (by omega)
        rw [accumulate_append, inductionHypothesis _ shorter, Option.bind_some, accumulate,
          digit?_digitChar small last, Option.bind_some, Nat.div_add_mod']
        rfl
  cases written : Nat.toDigits base value with
  | nil => exact absurd written Nat.toDigits_ne_nil
  | cons character rest =>
    rw [written] at accumulated
    exact accumulated

/-- Different values have different numerals. -/
theorem toDigits_inj {first second : Nat} :
    Nat.toDigits base first = Nat.toDigits base second ↔ first = second := by
  refine ⟨fun same => ?_, congrArg _⟩
  have read := read?_toDigits several small first
  rw [same, read?_toDigits several small second] at read
  exact (Option.some.inj read).symm

/-- The characters of a written numeral are digits. -/
theorem exists_denotes_of_mem_toDigits {value : Nat} {character : Char}
    (member : character ∈ Nat.toDigits base value) : ∃ digit, Denotes base character digit := by
  obtain ⟨digits, _, each, _⟩ :=
    (read?_eq_some_iff small _ _).mp (read?_toDigits several small value)
  obtain ⟨digit, _, denotes⟩ := exists_of_forall₂ each member
  exact ⟨digit, denotes⟩

end Writing

end BitGraph.Numeral
