/-
This file says which JSON values each reader accepts: numbers below a bound, lists,
magnitudes given by their digits, records, and choices. A magnitude is the value of its
digits to the base of 2 to the 32, whether or not there are zeros above them.
-/

import BitGraph.Json.Decode
import BitGraph.Proofs.Lists

namespace BitGraph

/-! ### Digits of a magnitude -/

theorem wordDigits_eq_digits (value : Nat) :
    wordDigits value = Nat.digits Numeral.wordBound value := by
  induction value using Nat.strongRecOn with
  | ind value inductionHypothesis =>
    rw [wordDigits]
    split
    case isTrue zero => rw [zero, Nat.digits_zero]
    case isFalse positive =>
      have several : 1 < Numeral.wordBound := by decide
      rw [Nat.digits_def' several (Nat.pos_of_ne_zero positive), inductionHypothesis]
      exact Nat.div_lt_self (Nat.pos_of_ne_zero positive) several

namespace Json

variable {json : Json}

theorem decodeBelow_eq_ok_iff {bound value : Nat} :
    json.decodeBelow bound = .ok value ↔ json = .natural value ∧ value < bound := by
  constructor
  · intro read
    unfold decodeBelow at read
    split at read
    case h_1 =>
      split at read
      case isTrue below =>
        cases read
        exact ⟨rfl, below⟩
      case isFalse => cases read
    case h_2 => cases read
  · rintro ⟨rfl, below⟩
    exact if_pos below

theorem decodeList_eq_ok_iff {Item : Type} {decode : Json → Decoded Item} {values : List Item} :
    json.decodeList decode = .ok values ↔
      ∃ items, json = .array items ∧
        List.Forall₂ (fun item value => decode item = .ok value) items values := by
  cases json with
  | array items =>
    rw [decodeList, mapM_eq_ok_iff]
    exact ⟨fun each => ⟨items, rfl, each⟩, by rintro ⟨_, ⟨⟩, each⟩; exact each⟩
  | _ => exact iff_of_false (by rintro ⟨⟩) (by rintro ⟨_, ⟨⟩, _⟩)

theorem forall₂_natural_iff {bound : Nat} {items : List Json} {digits : List Nat} :
    List.Forall₂ (fun item digit => item.decodeBelow bound = .ok digit) items digits ↔
      items = digits.map .natural ∧ ∀ digit ∈ digits, digit < bound := by
  simp only [decodeBelow_eq_ok_iff]
  induction digits generalizing items with
  | nil => simp
  | cons digit rest inductionHypothesis =>
    rw [List.forall₂_cons_right_iff, List.map_cons, List.forall_mem_cons]
    constructor
    · rintro ⟨_, others, ⟨rfl, below⟩, each, rfl⟩
      obtain ⟨rfl, small⟩ := inductionHypothesis.mp each
      exact ⟨rfl, below, small⟩
    · rintro ⟨rfl, below, small⟩
      exact ⟨_, _, ⟨rfl, below⟩, inductionHypothesis.mpr ⟨rfl, small⟩, rfl⟩

/-- A magnitude is the value of the digits it is given by. -/
theorem decodeMagnitude_eq_ok_iff {value : Nat} :
    json.decodeMagnitude = .ok value ↔
      ∃ digits, json = .array (digits.map .natural) ∧
        (∀ digit ∈ digits, digit < Numeral.wordBound) ∧
        Nat.ofDigits Numeral.wordBound digits = value := by
  rw [decodeMagnitude, map_eq_ok_iff]
  refine exists_congr fun digits => ?_
  rw [decodeList_eq_ok_iff, Nat.ofDigits_eq_foldr, ← and_assoc]
  refine and_congr_left' ?_
  constructor
  · rintro ⟨items, rfl, each⟩
    obtain ⟨rfl, small⟩ := forall₂_natural_iff.mp each
    exact ⟨rfl, small⟩
  · rintro ⟨rfl, small⟩
    exact ⟨_, rfl, forall₂_natural_iff.mpr ⟨rfl, small⟩⟩

theorem decodeMagnitude_magnitude (value : Nat) :
    (magnitude value).decodeMagnitude = .ok value := by
  refine decodeMagnitude_eq_ok_iff.mpr ⟨wordDigits value, rfl, ?_, ?_⟩
  · rw [wordDigits_eq_digits]
    exact fun digit member => Nat.digits_lt_base (by decide) member
  · rw [wordDigits_eq_digits, Nat.ofDigits_digits]

/-! ### Records and choices -/

theorem required_eq_ok_iff {Field : Type} {decode : Json → Decoded Field} {field : Option Json}
    {value : Field} :
    required decode field = .ok value ↔ ∃ json, field = some json ∧ decode json = .ok value := by
  cases field <;> simp [required]

theorem exists_of_optional_eq_some {Field : Type} {decode : Json → Decoded Field}
    {field : Option Json} {value : Field} (read : optional decode field = .ok (some value)) :
    ∃ json, field = some json ∧ decode json = .ok value := by
  cases field with
  | none => cases read
  | some json =>
    refine ⟨json, rfl, ?_⟩
    cases json with
    | null => cases read
    | _ =>
      obtain ⟨_, decoded, same⟩ := map_eq_ok_iff.mp read
      cases same
      exact decoded

/-- A case is read by its name, as long as no other one has the same. -/
theorem decodeNamed_string {Case : Type} {cases : List Case} {name : Case → String} {one : Case}
    (member : one ∈ cases) (distinct : ∀ other ∈ cases, name other = name one → other = one) :
    (Json.string (name one)).decodeNamed cases name = .ok one := by
  have some_found : (cases.find? (name · = name one)).isSome = true :=
    List.find?_isSome.mpr ⟨one, member, decide_eq_true rfl⟩
  obtain ⟨other, found⟩ := Option.isSome_iff_exists.mp some_found
  have named : decide (name other = name one) = true :=
    List.find?_some (p := fun case => decide (name case = name one)) found
  have same : other = one :=
    distinct other (List.mem_of_find?_eq_some found) (of_decide_eq_true named)
  simp only [decodeNamed, choice, found, carriesNothing, same, if_true]

end Json

end BitGraph
