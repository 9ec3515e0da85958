/-
This file proves that the JSON forms keep what they are for. What is written is read back,
and whatever is read, from the written form or from any other one that is accepted, is a
value that the form is for, so that writing it and reading it again changes nothing. For
patterns the check behind reading is the only one: no pattern is read whose magnitude does
not fit, however many digits it is given by.
-/

import BitGraph.Encoding.Diagnostic
import BitGraph.Proofs.Bits.Unchecked
import BitGraph.Proofs.Json.Decoding

namespace BitGraph

/-- How the values of a type are written and read as JSON, and which of them are: numbers that have
words in the form must not take more than 32 bits, and those of codes not more than 16. -/
structure Form (Content : Type) where
  encode : Content → Json
  decode : Json → Decoded Content
  Fits : Content → Prop

namespace Form

variable {Content : Type}

/-- Write what was read. -/
def normalize (form : Form Content) (json : Json) : Decoded Json :=
  (form.decode json).map form.encode

/-- A form keeps the values it is for, and reads no others. -/
structure Faithful (form : Form Content) : Prop where
  decode_encode : ∀ content, form.Fits content → form.decode (form.encode content) = .ok content
  fits_of_decode : ∀ json content, form.decode json = .ok content → form.Fits content
  decode_again : ∀ json content, form.decode json = .ok content →
    form.decode (form.encode content) = .ok content
  normalize_again : ∀ json normal, form.normalize json = .ok normal →
    form.normalize normal = .ok normal

/-- A form is faithful if it keeps the values it is for and reads no others. -/
theorem faithful {form : Form Content}
    (keeps : ∀ content, form.Fits content → form.decode (form.encode content) = .ok content)
    (fits : ∀ json content, form.decode json = .ok content → form.Fits content) :
    form.Faithful where
  decode_encode := keeps
  fits_of_decode := fits
  decode_again json content read := keeps content (fits json content read)
  normalize_again json normal read := by
    obtain ⟨content, decoded, rfl⟩ := map_eq_ok_iff.mp read
    exact map_eq_ok_iff.mpr ⟨content, keeps content (fits json content decoded), rfl⟩

end Form

/-! ### The forms -/

/-- The form of numbers of operations, of inputs and of names. -/
def Form.word : Form Nat :=
  ⟨.natural, Json.decodeWord, (· < Numeral.wordBound)⟩

def Bits.form : Form Bits :=
  ⟨Bits.encode, Bits.decode, fun bits => bits.width < Numeral.wordBound⟩

def BitType.form : Form BitType :=
  ⟨BitType.encode, BitType.decode, fun type => type.width < Numeral.wordBound⟩

def Kind.form : Form Kind :=
  ⟨Kind.encode, Kind.decode, fun _ => True⟩

/-- The values whose numbers take at most 32 bits. -/
def Value.Fits : Value → Prop
  | .input index => index < Numeral.wordBound
  | .result id => id < Numeral.wordBound

def Value.form : Form Value :=
  ⟨Value.encode, Value.decode, Value.Fits⟩

/-- The attributes whose lowest bit takes at most 32 bits; a constant may be of any size. -/
def Attribute.Fits : Attribute → Prop
  | .extract lowBit => lowBit < Numeral.wordBound
  | .none | .constant _ => True

def Attribute.form : Form Attribute :=
  ⟨Attribute.encode, Attribute.decode, Attribute.Fits⟩

def Category.form : Form Category :=
  ⟨Category.encode, Category.decode, fun _ => True⟩

def Severity.form : Form Severity :=
  ⟨Severity.encode, Severity.decode, fun _ => True⟩

def Code.form : Form Code :=
  ⟨Code.encode, Code.decode, fun code => code.number < 65536⟩

/-- The diagnostics whose numbers fit their fields. -/
def Diagnostic.Fits (diagnostic : Diagnostic) : Prop :=
  diagnostic.code.number < 65536 ∧ ∀ id, diagnostic.op = some id → id < Numeral.wordBound

def Diagnostic.form : Form Diagnostic :=
  ⟨Diagnostic.encode, Diagnostic.decode, Diagnostic.Fits⟩

/-- The form of numbered texts. -/
def Arena.form : Form (Arena String) :=
  ⟨Arena.encode .string, Arena.decode Json.decodeString, fun _ => True⟩

theorem Form.faithful_word : Form.word.Faithful :=
  Form.faithful (fun _ small => Json.decodeBelow_eq_ok_iff.mpr ⟨rfl, small⟩)
    fun _ _ read => (Json.decodeBelow_eq_ok_iff.mp read).2

/-! ### Patterns and types -/

theorem Bits.decode_eq_ok_iff {json : Json} {bits : Bits} :
    Bits.decode json = .ok bits ↔
      ∃ width magnitude, json.fields ["width", "magnitude"] = .ok [some width, some magnitude] ∧
        width.decodeWord = .ok bits.width ∧ magnitude.decodeMagnitude = .ok bits.magnitude := by
  rw [Bits.decode, bind_eq_ok_iff]
  constructor
  · rintro ⟨found, fields, read⟩
    split at read
    case h_1 width magnitude =>
      obtain ⟨bound, widthRead, read⟩ := bind_eq_ok_iff.mp read
      obtain ⟨number, magnitudeRead, read⟩ := bind_eq_ok_iff.mp read
      obtain ⟨rfl, rfl⟩ := ofMagnitude_eq_ok_iff.mp (mapError_eq_ok_iff.mp read)
      obtain ⟨width, rfl, widthRead⟩ := Json.required_eq_ok_iff.mp widthRead
      obtain ⟨magnitude, rfl, magnitudeRead⟩ := Json.required_eq_ok_iff.mp magnitudeRead
      exact ⟨width, magnitude, fields, widthRead, magnitudeRead⟩
    case h_2 => cases read
  · rintro ⟨width, magnitude, fields, widthRead, magnitudeRead⟩
    refine ⟨_, fields, ?_⟩
    refine bind_eq_ok_iff.mpr ⟨_, widthRead, bind_eq_ok_iff.mpr ⟨_, magnitudeRead, ?_⟩⟩
    exact mapError_eq_ok_iff.mpr (ofMagnitude_eq_ok_iff.mpr ⟨rfl, rfl⟩)

theorem Bits.faithful_form : Bits.form.Faithful := by
  refine Form.faithful (fun bits small => ?_) fun json bits read => ?_
  · exact decode_eq_ok_iff.mpr ⟨_, _, rfl, Json.decodeBelow_eq_ok_iff.mpr ⟨rfl, small⟩,
      Json.decodeMagnitude_magnitude bits.magnitude⟩
  · obtain ⟨_, _, _, widthRead, _⟩ := decode_eq_ok_iff.mp read
    exact (Json.decodeBelow_eq_ok_iff.mp widthRead).2

theorem BitType.decode_eq_ok_iff {json : Json} {type : BitType} :
    BitType.decode json = .ok type ↔
      ∃ width, json.fields ["width"] = .ok [some width] ∧ width.decodeWord = .ok type.width := by
  rw [BitType.decode, bind_eq_ok_iff]
  constructor
  · rintro ⟨found, fields, read⟩
    split at read
    case h_1 width =>
      obtain ⟨bound, widthRead, read⟩ := bind_eq_ok_iff.mp read
      have built := mapError_eq_ok_iff.mp read
      obtain ⟨width, rfl, widthRead⟩ := Json.required_eq_ok_iff.mp widthRead
      unfold ofWidth at built
      split at built
      case isTrue =>
        cases built
        exact ⟨width, fields, widthRead⟩
      case isFalse => cases built
    case h_2 => cases read
  · rintro ⟨width, fields, widthRead⟩
    refine ⟨_, fields, bind_eq_ok_iff.mpr ⟨_, widthRead, ?_⟩⟩
    exact mapError_eq_ok_iff.mpr (dif_pos type.positive)

theorem BitType.faithful_form : BitType.form.Faithful := by
  refine Form.faithful (fun type small => ?_) fun json type read => ?_
  · exact decode_eq_ok_iff.mpr ⟨_, rfl, Json.decodeBelow_eq_ok_iff.mpr ⟨rfl, small⟩⟩
  · obtain ⟨_, _, widthRead⟩ := decode_eq_ok_iff.mp read
    exact (Json.decodeBelow_eq_ok_iff.mp widthRead).2

/-! ### Names of cases -/

theorem Kind.tag_injective {first second : Kind} (same : first.tag = second.tag) :
    first = second := by
  have apart : ∀ first ∈ all, ∀ second ∈ all, first.tag = second.tag → first = second := by
    decide
  exact apart first (mem_all first) second (mem_all second) same

theorem Kind.faithful_form : Kind.form.Faithful :=
  Form.faithful (fun kind _ => Json.decodeNamed_string (mem_all kind) fun _ _ => tag_injective)
    fun _ _ _ => trivial

theorem Category.faithful_form : Category.form.Faithful := by
  refine Form.faithful (fun category _ => ?_) fun _ _ _ => trivial
  cases category <;> rfl

theorem Severity.faithful_form : Severity.form.Faithful := by
  refine Form.faithful (fun severity _ => ?_) fun _ _ _ => trivial
  cases severity <;> rfl

/-! ### Choices -/

theorem Value.faithful_form : Value.form.Faithful := by
  refine Form.faithful (fun value small => ?_) fun json value read => ?_
  · cases value with
    | input index =>
      refine bind_eq_ok_iff.mpr ⟨("Input", some (.natural index)), rfl, ?_⟩
      exact bind_eq_ok_iff.mpr ⟨index, Json.decodeBelow_eq_ok_iff.mpr ⟨rfl, small⟩, rfl⟩
    | result id =>
      refine bind_eq_ok_iff.mpr ⟨("Op", some (.natural id)), rfl, ?_⟩
      exact bind_eq_ok_iff.mpr ⟨id, Json.decodeBelow_eq_ok_iff.mpr ⟨rfl, small⟩, rfl⟩
  · obtain ⟨found, choice, read⟩ := bind_eq_ok_iff.mp read
    split at read
    case h_1 =>
      obtain ⟨_, small, same⟩ := bind_eq_ok_iff.mp read
      cases same
      exact (Json.decodeBelow_eq_ok_iff.mp small).2
    case h_2 =>
      obtain ⟨_, small, same⟩ := bind_eq_ok_iff.mp read
      cases same
      exact (Json.decodeBelow_eq_ok_iff.mp small).2
    case h_3 => cases read

theorem Attribute.faithful_form : Attribute.form.Faithful := by
  refine Form.faithful (fun attr small => ?_) fun json attr read => ?_
  · cases attr with
    | none => rfl
    | constant magnitude =>
      refine bind_eq_ok_iff.mpr ⟨("Constant", some (.magnitude magnitude)), rfl, ?_⟩
      exact bind_eq_ok_iff.mpr ⟨magnitude, Json.decodeMagnitude_magnitude magnitude, rfl⟩
    | extract lowBit =>
      refine bind_eq_ok_iff.mpr
        ⟨("Extract", some (.object [("low_bit", .natural lowBit)])), rfl, ?_⟩
      exact bind_eq_ok_iff.mpr ⟨lowBit, Json.decodeBelow_eq_ok_iff.mpr ⟨rfl, small⟩, rfl⟩
  · obtain ⟨found, choice, read⟩ := bind_eq_ok_iff.mp read
    split at read
    case h_1 =>
      split at read
      · cases read
        trivial
      · cases read
    case h_2 =>
      obtain ⟨_, _, same⟩ := bind_eq_ok_iff.mp read
      cases same
      trivial
    case h_3 =>
      obtain ⟨_, small, same⟩ := bind_eq_ok_iff.mp read
      cases same
      obtain ⟨_, _, small⟩ := Json.required_eq_ok_iff.mp small
      exact (Json.decodeBelow_eq_ok_iff.mp small).2
    case h_4 => cases read

/-! ### Records -/

theorem Code.faithful_form : Code.form.Faithful := by
  refine Form.faithful (fun code small => ?_) fun json code read => ?_
  · have category := Category.faithful_form.decode_encode code.category trivial
    have number := Json.decodeBelow_eq_ok_iff.mpr ⟨rfl, small⟩
    exact bind_eq_ok_iff.mpr ⟨_, rfl,
      bind_eq_ok_iff.mpr ⟨_, category, bind_eq_ok_iff.mpr ⟨_, number, rfl⟩⟩⟩
  · obtain ⟨found, fields, read⟩ := bind_eq_ok_iff.mp read
    split at read
    case h_1 =>
      obtain ⟨_, _, read⟩ := bind_eq_ok_iff.mp read
      obtain ⟨_, small, same⟩ := bind_eq_ok_iff.mp read
      cases same
      obtain ⟨_, _, small⟩ := Json.required_eq_ok_iff.mp small
      exact (Json.decodeBelow_eq_ok_iff.mp small).2
    case h_2 => cases read

theorem Json.decodeList_string (texts : List String) :
    (Json.array (texts.map .string)).decodeList decodeString = .ok texts := by
  refine decodeList_eq_ok_iff.mpr ⟨_, rfl, ?_⟩
  rw [List.forall₂_map_left_iff, List.forall₂_same]
  exact fun text _ => rfl

theorem Arena.faithful_form : Arena.form.Faithful := by
  refine Form.faithful (fun arena _ => ?_) fun _ _ _ => trivial
  exact bind_eq_ok_iff.mpr ⟨_, rfl,
    bind_eq_ok_iff.mpr ⟨arena.toList, Json.decodeList_string arena.toList, rfl⟩⟩

/-- A number that may be absent is told from null. -/
theorem Json.optional_natural {op : Option Nat}
    (small : ∀ id, op = some id → id < Numeral.wordBound) :
    optional decodeWord (some ((op.map natural).getD .null)) = .ok op := by
  cases op with
  | none => rfl
  | some id => exact map_eq_ok_iff.mpr ⟨id, decodeBelow_eq_ok_iff.mpr ⟨rfl, small id rfl⟩, rfl⟩

theorem Diagnostic.faithful_form : Diagnostic.form.Faithful := by
  refine Form.faithful (fun diagnostic small => ?_) fun json diagnostic read => ?_
  · have severity := Severity.faithful_form.decode_encode diagnostic.severity trivial
    have code := Code.faithful_form.decode_encode diagnostic.code small.1
    have op := Json.optional_natural small.2
    have notes := Json.decodeList_string diagnostic.notes
    have help := Json.decodeList_string diagnostic.help
    exact bind_eq_ok_iff.mpr ⟨_, rfl, bind_eq_ok_iff.mpr ⟨_, severity,
      bind_eq_ok_iff.mpr ⟨_, code, bind_eq_ok_iff.mpr ⟨_, rfl, bind_eq_ok_iff.mpr ⟨_, op,
        bind_eq_ok_iff.mpr ⟨_, notes, bind_eq_ok_iff.mpr ⟨_, help, rfl⟩⟩⟩⟩⟩⟩⟩
  · obtain ⟨found, fields, read⟩ := bind_eq_ok_iff.mp read
    split at read
    case h_1 =>
      obtain ⟨_, _, read⟩ := bind_eq_ok_iff.mp read
      obtain ⟨_, codeRead, read⟩ := bind_eq_ok_iff.mp read
      obtain ⟨_, _, read⟩ := bind_eq_ok_iff.mp read
      obtain ⟨_, opRead, read⟩ := bind_eq_ok_iff.mp read
      obtain ⟨_, _, read⟩ := bind_eq_ok_iff.mp read
      obtain ⟨_, _, same⟩ := bind_eq_ok_iff.mp read
      cases same
      obtain ⟨_, _, codeRead⟩ := Json.required_eq_ok_iff.mp codeRead
      refine ⟨Code.faithful_form.fits_of_decode _ _ codeRead, ?_⟩
      rintro id rfl
      obtain ⟨_, _, idRead⟩ := Json.exists_of_optional_eq_some opRead
      exact (Json.decodeBelow_eq_ok_iff.mp idRead).2
    case h_2 => cases read

/-! ### What the checks refuse -/

section Refusals

variable {json : Json} {width : Nat} {digits : List Nat} {reason : DecodeError}

/-- A pattern is read out of a width and digits exactly as it is built from the numbers they
denote. -/
theorem Bits.decode_of_fields
    (given : json.fields ["width", "magnitude"] =
      .ok [some (.natural width), some (.array (digits.map .natural))])
    (small : width < Numeral.wordBound) (each : ∀ digit ∈ digits, digit < Numeral.wordBound) :
    Bits.decode json =
      (ofMagnitude width (Nat.ofDigits Numeral.wordBound digits)).mapError .refused := by
  have widthRead : (Json.natural width).decodeWord = .ok width :=
    Json.decodeBelow_eq_ok_iff.mpr ⟨rfl, small⟩
  have magnitudeRead : (Json.array (digits.map .natural)).decodeMagnitude =
      .ok (Nat.ofDigits Numeral.wordBound digits) :=
    Json.decodeMagnitude_eq_ok_iff.mpr ⟨digits, rfl, each, rfl⟩
  rw [Bits.decode, given]
  show (Json.natural width).decodeWord.bind (fun width =>
      (Json.array (digits.map .natural)).decodeMagnitude.bind fun magnitude =>
        (ofMagnitude width magnitude).mapError .refused) = _
  rw [widthRead, magnitudeRead]
  rfl

/-- A width and digits are refused exactly if the width is zero or the number that the digits denote
does not fit it. -/
theorem Bits.decode_eq_error_iff
    (given : json.fields ["width", "magnitude"] =
      .ok [some (.natural width), some (.array (digits.map .natural))])
    (small : width < Numeral.wordBound) (each : ∀ digit ∈ digits, digit < Numeral.wordBound) :
    Bits.decode json = .error reason ↔
      (width = 0 ∧ reason = .refused .zeroWidth) ∨
      (0 < width ∧ 2 ^ width ≤ Nat.ofDigits Numeral.wordBound digits ∧
        reason = .refused (.overflow width (Nat.ofDigits Numeral.wordBound digits))) := by
  rw [decode_of_fields given small each, mapError_eq_error_iff]
  simp only [ofMagnitude_eq_error_iff, or_and_right, exists_or, and_assoc]
  simp only [exists_and_left, exists_eq_left, @eq_comm _ _ reason]

/-- A type is refused exactly for a width of zero. -/
theorem BitType.decode_eq_error_iff (given : json.fields ["width"] = .ok [some (.natural width)])
    (small : width < Numeral.wordBound) :
    BitType.decode json = .error reason ↔ width = 0 ∧ reason = .refused .zeroWidth := by
  have widthRead : (Json.natural width).decodeWord = .ok width :=
    Json.decodeBelow_eq_ok_iff.mpr ⟨rfl, small⟩
  rw [BitType.decode, given]
  show (Json.natural width).decodeWord.bind (fun width =>
      (ofWidth width).mapError .refused) = _ ↔ _
  rw [widthRead]
  show (ofWidth width).mapError DecodeError.refused = _ ↔ _
  unfold ofWidth
  split
  case isTrue positive => exact iff_of_false (by rintro ⟨⟩) fun zero => positive.ne' zero.1
  case isFalse zero =>
    rw [and_iff_right (Nat.eq_zero_of_not_pos zero), eq_comm]
    exact Iff.of_eq (Except.error.injEq _ _)

end Refusals

/-- Whatever numbers are read as those of a pattern have passed the check. -/
theorem Figures.exists_of_decode {json : Json} {figures : Figures}
    (read : Figures.decode json = .ok figures) :
    ∃ bits, Bits.decode json = .ok bits ∧ bits.figures = figures := by
  rw [Figures.decode_eq] at read
  cases decoded : Bits.decode json with
  | error reason =>
    rw [decoded] at read
    cases read
  | ok bits =>
    rw [decoded] at read
    exact ⟨bits, rfl, Except.ok.inj read⟩

/-- The JSON forms are faithful: what is written is read back, what is read fits its type, and
writing what was read and reading it again gives it again. The form of a number stands for
operations, inputs and names. Whatever numbers are read as those of a pattern are those of a
pattern, although nothing but the check at the end sees to it; and the check refuses exactly a
width of zero and digits that denote a number that does not fit, zeros above them or not. -/
theorem forms_faithful :
    Bits.form.Faithful ∧ BitType.form.Faithful ∧ Kind.form.Faithful ∧ Value.form.Faithful ∧
    Form.word.Faithful ∧ Attribute.form.Faithful ∧ Category.form.Faithful ∧
    Severity.form.Faithful ∧ Code.form.Faithful ∧ Diagnostic.form.Faithful ∧
    Arena.form.Faithful ∧
    (∀ json figures, Figures.decode json = .ok figures →
      0 < figures.width ∧ figures.width < Numeral.wordBound ∧
      figures.magnitude < 2 ^ figures.width) ∧
    (∀ json width digits, json.fields ["width", "magnitude"] =
        .ok [some (.natural width), some (.array (digits.map .natural))] →
      width < Numeral.wordBound → (∀ digit ∈ digits, digit < Numeral.wordBound) →
      ((∃ reason, Bits.decode json = .error reason) ↔
        width = 0 ∨ 2 ^ width ≤ Nat.ofDigits Numeral.wordBound digits) ∧
      ∀ reason, Bits.decode json = .error reason ↔
        (width = 0 ∧ reason = .refused .zeroWidth) ∨
        (0 < width ∧ 2 ^ width ≤ Nat.ofDigits Numeral.wordBound digits ∧
          reason = .refused (.overflow width (Nat.ofDigits Numeral.wordBound digits)))) ∧
    (∀ json width, json.fields ["width"] = .ok [some (.natural width)] →
      width < Numeral.wordBound →
      ∀ reason, BitType.decode json = .error reason ↔
        width = 0 ∧ reason = .refused .zeroWidth) := by
  refine ⟨Bits.faithful_form, BitType.faithful_form, Kind.faithful_form, Value.faithful_form,
    Form.faithful_word, Attribute.faithful_form, Category.faithful_form, Severity.faithful_form,
    Code.faithful_form, Diagnostic.faithful_form, Arena.faithful_form,
    fun json figures read => ?_, fun json width digits given small each => ⟨?_, ?_⟩,
    fun json width given small reason => BitType.decode_eq_error_iff given small⟩
  · obtain ⟨bits, decoded, rfl⟩ := Figures.exists_of_decode read
    exact ⟨bits.positive, Bits.faithful_form.fits_of_decode json bits decoded, bits.magnitude_lt⟩
  · simp only [Bits.decode_eq_error_iff given small each]
    constructor
    · rintro ⟨_, ⟨zero, _⟩ | ⟨_, large, _⟩⟩
      · exact .inl zero
      · exact .inr large
    · rintro (zero | large)
      · exact ⟨_, .inl ⟨zero, rfl⟩⟩
      · rcases Nat.eq_zero_or_pos width with zero | positive
        · exact ⟨_, .inl ⟨zero, rfl⟩⟩
        · exact ⟨_, .inr ⟨positive, large, rfl⟩⟩
  · exact fun reason => Bits.decode_eq_error_iff given small each

/-- A pattern of nine bits is given by an array of its fields, with two zeros above its digit. It is
read, and its own form is another one, which is read as the same. In eight bits the same digits
are refused. -/
theorem forms_faithful_zerosAbove :
    let wide : Json := .array [.natural 9, .array [.natural 256, .natural 0, .natural 0]]
    let narrow : Json := .object [("note", .null),
      ("magnitude", .array [.natural 256, .natural 0, .natural 0]), ("width", .natural 8)]
    let normal : Json := .object [("width", .natural 9), ("magnitude", .array [.natural 256])]
    Bits.form.normalize wide = .ok normal ∧ Bits.form.normalize normal = .ok normal ∧
    (∃ figures, Figures.decode wide = .ok figures ∧ figures.magnitude < 2 ^ figures.width) ∧
    Bits.decode narrow = .error (.refused (.overflow 8 256)) ∧
    BitType.decode (.array [.natural 0]) = .error (.refused .zeroWidth) := by
  intro wide narrow normal
  obtain ⟨patterns, _, _, _, _, _, _, _, _, _, _, numbers, refusals, types⟩ := forms_faithful
  have single : wordDigits 256 = [256] := by
    rw [wordDigits_eq_digits]
    exact Nat.digits_of_lt _ 256 (by decide) (by decide)
  have written : Bits.form.normalize wide = .ok normal := by
    refine map_eq_ok_iff.mpr ⟨⟨9, by decide, 256#9⟩, rfl, ?_⟩
    show Json.object
      [("width", .natural 9), ("magnitude", .array ((wordDigits 256).map .natural))] = _
    rw [single]
    rfl
  have computed : Figures.decode wide = .ok ⟨9, 256⟩ := rfl
  have refused := (refusals narrow 8 [256, 0, 0] rfl (by decide) (by decide)).2
  refine ⟨written, patterns.normalize_again wide normal written,
    ⟨_, computed, (numbers wide _ computed).2.2⟩, (refused _).mpr (.inr (by decide)), ?_⟩
  exact (types (.array [.natural 0]) 0 rfl (by decide) _).mpr ⟨rfl, rfl⟩

end BitGraph
