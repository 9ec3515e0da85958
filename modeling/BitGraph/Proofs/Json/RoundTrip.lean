/-
This file proves that the compact text of a JSON value is read back as that value, however
deep it is nested and whatever its strings hold, and that no character of the text lies below
the blank. So the text never holds the end of a line.

The items of an array and the members of an object are both written as a row of entries with
commas between them, and read by rounds of the same shape; what is proved of them is proved
once, of any such row.
-/

import BitGraph.Json.Reading
import BitGraph.Proofs.Numerals

namespace BitGraph.Json

/-- What holds of an array if it holds of its items, of an object if it holds of the values of its
members, and of everything else, holds of every value. -/
theorem induction_values {motive : Json → Prop} (null : motive .null)
    (bool : ∀ value, motive (.bool value)) (integer : ∀ value, motive (.integer value))
    (fraction : ∀ mantissa places, motive (.fraction mantissa places))
    (string : ∀ text, motive (.string text))
    (array : ∀ items, (∀ item ∈ items, motive item) → motive (.array items))
    (object : ∀ members, (∀ member ∈ members, motive member.2) → motive (.object members))
    (json : Json) : motive json := by
  refine @Json.rec motive (fun items => ∀ item ∈ items, motive item)
    (fun members => ∀ member ∈ members, motive member.2) (fun member => motive member.2)
    null bool integer fraction string array object ?_ ?_ ?_ ?_ ?_ json
  · exact fun _ member => absurd member List.not_mem_nil
  · exact fun _ _ first others => List.forall_mem_cons.mpr ⟨first, others⟩
  · exact fun _ member => absurd member List.not_mem_nil
  · exact fun _ _ first others => List.forall_mem_cons.mpr ⟨first, others⟩
  · exact fun _ _ value => value

/-! ### Rows of entries -/

/-- The texts of the entries of a row, with commas between them. -/
def rowText (texts : List (List Char)) : List Char :=
  [','].intercalate texts

theorem rowText_singleton (one : List Char) : rowText [one] = one :=
  List.intercalate_singleton

theorem rowText_cons_cons (first second : List Char) (others : List (List Char)) :
    rowText (first :: second :: others) = first ++ ',' :: rowText (second :: others) := by
  rw [rowText, List.intercalate_cons_cons, List.append_assoc, List.singleton_append, rowText]

/-- The text of a member. -/
def memberText (member : String × Json) : List Char :=
  quote member.1 ++ ':' :: text member.2

theorem itemsText_eq_rowText (items : List Json) : itemsText items = rowText (items.map text) := by
  induction items with
  | nil => rfl
  | cons first others inductionHypothesis =>
    cases others with
    | nil => exact (rowText_singleton _).symm
    | cons second others =>
      rw [itemsText, inductionHypothesis, List.map_cons, List.map_cons, List.map_cons,
        rowText_cons_cons]

theorem membersText_eq_rowText (members : List (String × Json)) :
    membersText members = rowText (members.map memberText) := by
  induction members with
  | nil => rfl
  | cons first others inductionHypothesis =>
    cases others with
    | nil => exact (rowText_singleton _).symm
    | cons second others =>
      rw [membersText, inductionHypothesis, List.map_cons, List.map_cons, List.map_cons,
        rowText_cons_cons, memberText.eq_def first, List.append_assoc, List.cons_append]

/-- Between any two entries of a row stands a comma. -/
theorem length_le_rowText (texts : List (List Char)) :
    texts.length ≤ (rowText texts).length + 1 := by
  induction texts with
  | nil => exact Nat.zero_le _
  | cons first others inductionHypothesis =>
    cases others with
    | nil => exact Nat.le_add_left _ _
    | cons second others =>
      rw [rowText_cons_cons, List.length_append, List.length_cons (a := first),
        List.length_cons (a := ',')]
      omega

theorem length_le_rowText_of_mem {texts : List (List Char)} {one : List Char}
    (member : one ∈ texts) : one.length ≤ (rowText texts).length := by
  induction texts with
  | nil => cases member
  | cons first others inductionHypothesis =>
    cases others with
    | nil => rw [List.mem_singleton.mp member, rowText_singleton]
    | cons second others =>
      rw [rowText_cons_cons, List.length_append, List.length_cons]
      rcases List.mem_cons.mp member with rfl | inOthers
      · omega
      · have shorter := inductionHypothesis inOthers
        omega

theorem mem_of_mem_rowText {texts : List (List Char)} {character : Char}
    (member : character ∈ rowText texts) : character = ',' ∨ ∃ one ∈ texts, character ∈ one := by
  induction texts with
  | nil => cases member
  | cons first others inductionHypothesis =>
    cases others with
    | nil =>
      rw [rowText_singleton] at member
      exact .inr ⟨first, List.mem_cons_self, member⟩
    | cons second others =>
      rw [rowText_cons_cons, List.mem_append, List.mem_cons] at member
      rcases member with inFirst | comma | inOthers
      · exact .inr ⟨first, List.mem_cons_self, inFirst⟩
      · exact .inl comma
      · exact (inductionHypothesis inOthers).imp_right fun ⟨one, inRow, inOne⟩ =>
          ⟨one, List.mem_cons_of_mem _ inRow, inOne⟩

/-- What may stand behind a value: nothing, or a mark that ends it. -/
def Ends (rest : List Char) : Prop :=
  ∀ mark ∈ rest.head?, mark ∈ [',', ']', '\x7d']

theorem ends_nil : Ends [] :=
  fun _ none => nomatch none

theorem ends_cons {mark : Char} {rest : List Char} (ending : mark ∈ [',', ']', '\x7d']) :
    Ends (mark :: rest) :=
  fun _ same => Option.some.inj same ▸ ending

/-- How a row is read in rounds, each of which reads one entry: the row ends with the closing mark,
and goes on behind a comma. -/
structure ReadsRow {Entry : Type} (closing : Char) (entry : Reader Entry)
    (read : Nat → Reader (List Entry)) : Prop where
  last : ∀ {rounds characters one rest}, entry characters = some (one, closing :: rest) →
    read (rounds + 1) characters = some ([one], rest)
  next : ∀ {rounds characters one others more rest}, entry characters = some (one, ',' :: more) →
    read rounds more = some (others, rest) →
    read (rounds + 1) characters = some (one :: others, rest)

section ReadsRow

variable {Entry : Type} {closing : Char} {entry : Reader Entry}
  {read : Nat → Reader (List Entry)} (reads : ReadsRow closing entry read)
  (ending : closing ∈ [',', ']', '\x7d']) {write : Entry → List Char} {entries : List Entry}
  (several : entries ≠ [])
  (each : ∀ one ∈ entries, ∀ rest, Ends rest → entry (write one ++ rest) = some (one, rest))
include reads ending several each

theorem ReadsRow.read_rowText {rounds : Nat} (enough : entries.length ≤ rounds)
    (rest : List Char) :
    read rounds (rowText (entries.map write) ++ closing :: rest) = some (entries, rest) := by
  induction entries generalizing rounds with
  | nil => exact absurd rfl several
  | cons first others inductionHypothesis =>
    obtain ⟨here, there⟩ := List.forall_mem_cons.mp each
    obtain ⟨left, rfl⟩ := Nat.exists_eq_add_of_le' (Nat.le_trans (Nat.le_add_left 1 _) enough)
    cases others with
    | nil =>
      rw [List.map_singleton, rowText_singleton]
      exact reads.last (here _ (ends_cons ending))
    | cons second others =>
      have behind := inductionHypothesis (List.cons_ne_nil _ _) there
        (Nat.le_of_succ_le_succ enough)
      rw [List.map_cons, List.map_cons, rowText_cons_cons, List.append_assoc, List.cons_append]
      exact reads.next (here _ (ends_cons (by decide))) behind

/-- A row is read back if its entries are: its text is long enough to bound the rounds. -/
theorem ReadsRow.read_length (rest : List Char) :
    read (rowText (entries.map write) ++ closing :: rest).length
      (rowText (entries.map write) ++ closing :: rest) = some (entries, rest) := by
  refine reads.read_rowText ending several each ?_ rest
  have bounded := length_le_rowText (entries.map write)
  rw [List.length_map] at bounded
  rw [List.length_append, List.length_cons]
  omega

end ReadsRow

theorem readsRow_items (item : Reader Json) : ReadsRow ']' item (readItems item) where
  last one := by
    rw [readItems, one]
    rfl
  next one others := by
    rw [readItems, one]
    show (readItems item _ _).bind _ = _
    rw [others]
    rfl

theorem readsRow_members (item : Reader Json) :
    ReadsRow '\x7d' (readMember item) (readMembers item) where
  last one := by
    rw [readMembers, one]
    rfl
  next one others := by
    rw [readMembers, one]
    show (readMembers item _ _).bind _ = _
    rw [others]
    rfl

/-! ### Numbers -/

section Numbers

variable {rest : List Char}

theorem readNatural_toDigits (value : Nat) (ends : ∀ mark ∈ rest.head?, mark.isDigit = false) :
    readNatural (Nat.toDigits 10 value ++ rest) = some (value, rest) := by
  have digits : ∀ character ∈ Nat.toDigits 10 value, character.isDigit = true :=
    fun _ => Nat.isDigit_of_mem_toDigits (by decide) (by decide)
  have noMore : rest.takeWhile Char.isDigit = [] ∧ rest.dropWhile Char.isDigit = rest := by
    cases rest with
    | nil => exact ⟨rfl, rfl⟩
    | cons mark rest =>
      have other := ends mark rfl
      exact ⟨List.takeWhile_cons_of_neg (by simp [other]),
        List.dropWhile_cons_of_neg (by simp [other])⟩
  rw [readNatural, List.takeWhile_append_of_pos digits, List.dropWhile_append_of_pos digits,
    noMore.1, noMore.2, List.append_nil, Numeral.read?_toDigits (by decide) (by decide)]
  rfl

/-- The numeral of a natural number begins with a digit. -/
theorem exists_toDigits_eq_cons (value : Nat) : ∃ first others,
    Nat.toDigits 10 value = first :: others ∧ first.isDigit = true := by
  obtain ⟨first, others, written⟩ :=
    List.exists_cons_of_ne_nil (Nat.toDigits_ne_nil (n := value) (b := 10))
  have member : first ∈ Nat.toDigits 10 value := written ▸ List.mem_cons_self
  exact ⟨first, others, written, Nat.isDigit_of_mem_toDigits (by decide) (by decide) member⟩

/-- The text of an integer begins with a digit or with a minus sign. -/
theorem exists_integerText_eq_cons (value : Int) : ∃ first others,
    integerText value = first :: others ∧ (first.isDigit = true ∨ first = '-') := by
  cases value with
  | ofNat value =>
    obtain ⟨first, others, written, digit⟩ := exists_toDigits_eq_cons value
    exact ⟨first, others, written, .inl digit⟩
  | negSucc value => exact ⟨_, _, rfl, .inr rfl⟩

theorem readInteger_integerText (value : Int)
    (ends : ∀ mark ∈ rest.head?, mark.isDigit = false) :
    readInteger (integerText value ++ rest) = some (value, rest) := by
  cases value with
  | ofNat value =>
    have noSign : ∀ others, Nat.toDigits 10 value ++ rest = '-' :: others → False := by
      intro others same
      obtain ⟨first, behind, written, digit⟩ := exists_toDigits_eq_cons value
      rw [written, List.cons_append, List.cons.injEq] at same
      rw [same.1] at digit
      exact absurd digit (by decide)
    rw [integerText, readInteger.eq_2 _ noSign, readNatural_toDigits value ends]
    rfl
  | negSucc value =>
    rw [integerText, List.cons_append, readInteger, readNatural_toDigits _ ends]
    rfl

theorem Ends.isDigit_eq_false (ends : Ends rest) : ∀ mark ∈ rest.head?, mark.isDigit = false := by
  intro mark here
  have each : ∀ mark ∈ [',', ']', '\x7d'], mark.isDigit = false := by simp [Char.isDigit]
  exact each mark (ends mark here)

theorem readNumber_integer (value : Int) (ends : Ends rest) :
    readNumber (integerText value ++ rest) = some (.integer value, rest) := by
  rw [readNumber, readInteger_integerText value ends.isDigit_eq_false, Option.bind_eq_bind,
    Option.bind_some]
  split
  case h_1 found mantissa more same =>
    cases same
    exact absurd (ends 'e' rfl) (by decide)
  case h_2 same =>
    cases same
    rfl

theorem readNumber_fraction (mantissa : Int) (places : Nat) (ends : Ends rest) :
    readNumber (text (.fraction mantissa places) ++ rest) =
      some (.fraction mantissa places, rest) := by
  have whole : text (.fraction mantissa places) ++ rest =
      integerText mantissa ++ 'e' :: '-' :: (Nat.toDigits 10 places ++ rest) := by
    rw [text, List.append_assoc, List.cons_append, List.cons_append]
  rw [whole, readNumber, readInteger_integerText mantissa (by simp)]
  show (readNatural (Nat.toDigits 10 places ++ rest)).bind _ = _
  rw [readNatural_toDigits places ends.isDigit_eq_false]
  rfl

end Numbers

/-! ### Values -/

theorem readMember_memberText {item : Reader Json} {member : String × Json} {rest : List Char}
    (read : item (text member.2 ++ rest) = some (member.2, rest)) :
    readMember item (memberText member ++ rest) = some (member, rest) := by
  rw [memberText, List.append_assoc, List.cons_append, readMember, readString_quote]
  show (item (text member.2 ++ rest)).bind _ = _
  rw [read]
  rfl

theorem text_ne_nil (json : Json) : text json ≠ [] := by
  cases json with
  | integer value =>
    obtain ⟨_, _, written, _⟩ := exists_integerText_eq_cons value
    rw [text, written]
    exact List.cons_ne_nil _ _
  | fraction mantissa places =>
    rw [text]
    exact List.append_ne_nil_of_right_ne_nil _ (List.cons_ne_nil _ _)
  | null | string _ | array _ | object _ => exact List.cons_ne_nil _ _
  | bool value => cases value <;> exact List.cons_ne_nil _ _

/-- What begins like a number is read as one. -/
theorem readValue_of_number {first : Char} (number : first.isDigit = true ∨ first = '-')
    (depth : Nat) (others : List Char) :
    readValue (depth + 1) (first :: others) = readNumber (first :: others) := by
  have apart : first ∉ ['n', 't', 'f', '[', '\x7b', '"'] := by
    rintro member
    rcases number with digit | rfl
    · revert digit
      fin_cases member <;> decide
    · exact absurd member (by decide)
  -- Every other way to begin a value begins with one of these characters.
  rw [readValue.eq_def]
  split <;> simp_all

section Nested

variable {depth : Nat} {rest : List Char}

/-- An array is read if its items are: where they are read, the text behind the opening bracket
does not begin with the closing one. -/
theorem readValue_array {items : List Json} {others : List Char}
    (read : readItems (readValue depth) others.length others = some (items, rest)) :
    readValue (depth + 1) ('[' :: others) = some (.array items, rest) := by
  have noClosing : ∀ more, others = ']' :: more → False := by
    rintro more rfl
    cases depth <;> cases read
  rw [readValue, read]
  · rfl
  · exact noClosing

theorem readValue_object {members : List (String × Json)} {others : List Char}
    (read : readMembers (readValue depth) others.length others = some (members, rest)) :
    readValue (depth + 1) ('\x7b' :: others) = some (.object members, rest) := by
  have noClosing : ∀ more, others = '\x7d' :: more → False := by
    rintro more rfl
    cases read
  rw [readValue, read]
  · rfl
  · exact noClosing

/-- The entries of a bracketed row are shorter than the row by both brackets, so that a bound on its
depth leaves one on theirs. -/
theorem exists_inner_depth {Entry : Type} {write : Entry → List Char} {entries : List Entry}
    {opening closing : Char}
    (deep : (opening :: (rowText (entries.map write) ++ [closing])).length ≤ depth + 1)
    {one : Entry} (member : one ∈ entries) :
    ∃ inner, depth = inner + 1 ∧ (write one).length ≤ inner + 1 := by
  have shorter := length_le_rowText_of_mem (List.mem_map_of_mem (f := write) member)
  rw [List.length_cons, List.length_append, List.length_singleton] at deep
  obtain ⟨inner, rfl⟩ := Nat.exists_eq_add_of_le' (show 1 ≤ depth by omega)
  exact ⟨inner, rfl, by omega⟩

end Nested

/-- A value is read back, and what stands behind it is left, unless the bound on the depth is
smaller than its text is long. -/
theorem readValue_text (json : Json) (depth : Nat) (deep : (text json).length ≤ depth + 1)
    (rest : List Char) (ends : Ends rest) :
    readValue (depth + 1) (text json ++ rest) = some (json, rest) := by
  induction json using induction_values generalizing depth rest with
  | null => rfl
  | bool value => cases value <;> rfl
  | integer value =>
    obtain ⟨first, others, written, number⟩ := exists_integerText_eq_cons value
    have read := readNumber_integer value ends
    rw [written, List.cons_append] at read
    rw [text, written, List.cons_append, readValue_of_number number, read]
  | fraction mantissa places =>
    obtain ⟨first, others, written, number⟩ := exists_integerText_eq_cons mantissa
    have read := readNumber_fraction mantissa places ends
    rw [text, written, List.cons_append, List.cons_append] at read ⊢
    rw [readValue_of_number number, read]
  | string value =>
    have read := readString_quote value rest
    rw [quote, List.cons_append] at read
    rw [text, quote, List.cons_append, readValue, read]
    rfl
  | array items inductionHypothesis =>
    rw [text, itemsText_eq_rowText] at deep ⊢
    rw [List.cons_append, List.append_assoc, List.singleton_append]
    by_cases none : items = []
    · rw [none]
      rfl
    refine readValue_array ((readsRow_items _).read_length (by decide) none ?_ rest)
    intro item member rest ends
    obtain ⟨inner, rfl, shorter⟩ := exists_inner_depth deep member
    exact inductionHypothesis item member inner shorter rest ends
  | object members inductionHypothesis =>
    rw [text, membersText_eq_rowText] at deep ⊢
    rw [List.cons_append, List.append_assoc, List.singleton_append]
    by_cases none : members = []
    · rw [none]
      rfl
    refine readValue_object ((readsRow_members _).read_length (by decide) none ?_ rest)
    intro one member rest ends
    obtain ⟨inner, rfl, shorter⟩ := exists_inner_depth deep member
    rw [memberText, List.length_append, List.length_cons] at shorter
    exact readMember_memberText (inductionHypothesis one member inner (by omega) rest ends)

/-- The compact text of a value is read back as the value. -/
theorem parse?_text (json : Json) : parse? (text json) = some json := by
  obtain ⟨depth, length⟩ := Nat.exists_eq_succ_of_ne_zero
    (List.length_pos_iff.mpr (text_ne_nil json)).ne'
  have read := readValue_text json depth length.le [] ends_nil
  rw [List.append_nil] at read
  rw [parse?, length, read]

/-! ### What the text is made of -/

/-- A character that does not lie below the blank, where the ends of lines are. -/
def Plain (character : Char) : Prop :=
  32 ≤ character.toNat

instance (character : Char) : Decidable (Plain character) :=
  inferInstanceAs (Decidable (32 ≤ character.toNat))

theorem plain_of_isDigit {character : Char} (digit : character.isDigit = true) :
    Plain character := by
  rw [Char.isDigit_iff_toNat] at digit
  exact Nat.le_trans (by decide) digit.1

theorem plain_digitChar : ∀ digit < 16, Plain (Nat.digitChar digit) := by
  decide

theorem plain_escapeControl {character : Char} (control : character.toNat < 32) :
    ∀ one ∈ escapeControl character, Plain one := by
  unfold escapeControl
  split_ifs
  iterate 5 simp [Plain]
  have high := plain_digitChar (character.toNat / 16) (by omega)
  have low := plain_digitChar (character.toNat % 16) (by omega)
  simp only [List.forall_mem_cons]
  exact ⟨by decide, by decide, by decide, by decide, high, low, List.forall_mem_nil _⟩

/-- What stands for a character in a string is plain, whatever the character is. -/
theorem plain_escape (character : Char) : ∀ one ∈ escape character, Plain one := by
  unfold escape
  split_ifs with mark slash control
  · simp [Plain]
  · simp [Plain]
  · exact plain_escapeControl control
  · exact List.forall_mem_singleton.mpr (Nat.not_lt.mp control)

theorem plain_quote (value : String) : ∀ character ∈ quote value, Plain character := by
  rw [quote, List.forall_mem_cons, List.forall_mem_append, List.forall_mem_singleton]
  refine ⟨by decide, fun one member => ?_, by decide⟩
  obtain ⟨character, _, inEscape⟩ := List.mem_flatMap.mp member
  exact plain_escape character one inEscape

theorem plain_toDigits (value : Nat) : ∀ character ∈ Nat.toDigits 10 value, Plain character :=
  fun _ member => plain_of_isDigit (Nat.isDigit_of_mem_toDigits (by decide) (by decide) member)

theorem plain_integerText (value : Int) : ∀ character ∈ integerText value, Plain character := by
  cases value with
  | ofNat value => exact plain_toDigits value
  | negSucc value => exact List.forall_mem_cons.mpr ⟨by decide, plain_toDigits _⟩

theorem plain_rowText {texts : List (List Char)}
    (each : ∀ one ∈ texts, ∀ character ∈ one, Plain character) :
    ∀ character ∈ rowText texts, Plain character := by
  intro character member
  rcases mem_of_mem_rowText member with rfl | ⟨one, inRow, inOne⟩
  · decide
  · exact each one inRow character inOne

/-- The text of a value is plain. -/
theorem plain_text (json : Json) : ∀ character ∈ text json, Plain character := by
  induction json using induction_values with
  | null => simp [text, Plain]
  | bool value => cases value <;> simp [text, Plain]
  | integer value => exact plain_integerText value
  | fraction mantissa places =>
    rw [text, List.forall_mem_append, List.forall_mem_cons, List.forall_mem_cons]
    exact ⟨plain_integerText mantissa, by decide, by decide, plain_toDigits places⟩
  | string value => exact plain_quote value
  | array items inductionHypothesis =>
    rw [text, itemsText_eq_rowText, List.forall_mem_cons, List.forall_mem_append,
      List.forall_mem_singleton]
    exact ⟨by decide, plain_rowText (List.forall_mem_map.mpr inductionHypothesis), by decide⟩
  | object members inductionHypothesis =>
    rw [text, membersText_eq_rowText, List.forall_mem_cons, List.forall_mem_append,
      List.forall_mem_singleton]
    refine ⟨by decide, plain_rowText (List.forall_mem_map.mpr fun one member => ?_), by decide⟩
    rw [memberText, List.forall_mem_append, List.forall_mem_cons]
    exact ⟨plain_quote one.1, by decide, inductionHypothesis one member⟩

end BitGraph.Json
