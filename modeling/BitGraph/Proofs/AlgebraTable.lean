/-
This file proves the table of algebras of the patterns that the program handles, at
every width. What is combined has the width of its parts, in any grouping and in
either order; identities and absorbing elements do on both sides what the table
promises, and an element is recognized exactly where it is the value of its width.
The total of a list of patterns therefore depends only on which patterns are in it
and how often, and for conjunctions and disjunctions only on which.
-/

import BitGraph.Proofs.Proposal.UniqueSpelling

namespace BitGraph

/-! ### Elements as patterns -/

theorem Element.value_eq (element : Element) {width : Nat} (positive : 0 < width) :
    element.value width = .ok ⟨width, positive, element.pattern width⟩ := by
  cases element with
  | zero =>
    rw [value, Bits.zero, Bits.ofMagnitude_of_fits positive rfl, Bits.wrap_eq_ofNat]
    rfl
  | one =>
    have fit : Bits.fits width 1 = true := by
      rw [Bits.fits_iff, Nat.one_shiftLeft]
      exact Nat.one_lt_two_pow (Nat.ne_of_gt positive)
    rw [value, Bits.one, Bits.ofMagnitude_of_fits positive fit, Bits.wrap_eq_ofNat]
    rfl
  | allOnes => exact dif_pos positive

/-- An element is recognized exactly in its own value. -/
theorem Element.holds_iff_value (element : Element) (bits : Bits) :
    element.holds bits = true ↔ element.value bits.width = .ok bits := by
  obtain ⟨width, positive, value⟩ := bits
  rw [holds_iff, element.value_eq positive, Except.ok.injEq, Bits.mk.injEq]
  constructor
  · exact fun same => ⟨rfl, heq_of_eq same.symm⟩
  · exact fun ⟨_, same⟩ => (eq_of_heq same).symm

/-! ### Totals without repetitions -/

namespace Algebra.Laws

variable {algebra : Algebra} (laws : algebra.Laws) (idempotent : algebra.idempotent = true)
  {width : Nat}

include idempotent in
/-- A vector that is in a list already adds nothing to its total. -/
theorem join_total_of_mem {vector : BitVec width} {vectors : List (BitVec width)}
    (member : vector ∈ vectors) : laws.join vector (laws.total vectors) = laws.total vectors := by
  induction vectors with
  | nil => cases member
  | cons first rest inductionHypothesis =>
    rw [total_cons]
    rcases List.mem_cons.mp member with rfl | inRest
    · rw [← laws.assoc, laws.join_self idempotent]
    · rw [laws.join_left_comm, inductionHypothesis inRest]

include idempotent in
theorem total_dedup (vectors : List (BitVec width)) :
    laws.total vectors.dedup = laws.total vectors := by
  induction vectors with
  | nil => rfl
  | cons vector rest inductionHypothesis =>
    by_cases repeated : vector ∈ rest
    · rw [List.dedup_cons_of_mem repeated, inductionHypothesis, total_cons,
        laws.join_total_of_mem idempotent repeated]
    · rw [List.dedup_cons_of_notMem repeated, total_cons, total_cons, inductionHypothesis]

include idempotent in
/-- Where repeating a pattern changes nothing, a total depends only on which patterns there are. -/
theorem total_of_mem_iff {first second : List (BitVec width)}
    (same : ∀ vector, vector ∈ first ↔ vector ∈ second) :
    laws.total first = laws.total second := by
  have perm : first.dedup.Perm second.dedup := by
    rw [List.perm_ext_iff_of_nodup first.nodup_dedup second.nodup_dedup]
    intro vector
    rw [List.mem_dedup, List.mem_dedup, same]
  rw [← laws.total_dedup idempotent first, laws.total_perm perm,
    laws.total_dedup idempotent second]

end Algebra.Laws

/-! ### The table -/

/-- What the table promises of an algebra at a width. -/
structure Algebra.SoundAt (algebra : Algebra) (width : Nat) : Prop where
  /-- Patterns of the width can be combined, and what they give has the width. -/
  closed : ∀ first second : Bits, first.width = width → second.width = width →
    ∃ both, algebra.combine first second = .ok both ∧ both.width = width
  assoc : ∀ first second third : Bits, first.width = width → second.width = width →
    third.width = width →
      (algebra.combine first second).bind (algebra.combine · third) =
        (algebra.combine second third).bind (algebra.combine first ·)
  comm : ∀ first second : Bits, first.width = width → second.width = width →
    algebra.combine first second = algebra.combine second first
  identity : ∃ identity, algebra.identity.value width = .ok identity ∧
    ∀ bits : Bits, bits.width = width →
      algebra.combine identity bits = .ok bits ∧ algebra.combine bits identity = .ok bits
  absorbing : ∀ element, algebra.absorbing = some element →
    ∃ absorbing, element.value width = .ok absorbing ∧ ∀ bits : Bits, bits.width = width →
      algebra.combine absorbing bits = .ok absorbing ∧
        algebra.combine bits absorbing = .ok absorbing
  self : algebra.idempotent = true → ∀ bits : Bits, bits.width = width →
    algebra.combine bits bits = .ok bits
  /-- Any positive number of patterns of the width can be combined. -/
  total : ∀ patterns : List Bits, patterns ≠ [] → (∀ bits ∈ patterns, bits.width = width) →
    ∃ total, algebra.combineAll patterns = .ok (some total) ∧ total.width = width
  perm : ∀ first second : List Bits, (∀ bits ∈ first, bits.width = width) → first.Perm second →
    algebra.combineAll first = algebra.combineAll second
  /-- Where combining a pattern with itself changes nothing, only which patterns there are counts:
  repetitions can be removed. -/
  repeats : algebra.idempotent = true → ∀ first second : List Bits,
    (∀ bits ∈ first, bits.width = width) → (∀ bits, bits ∈ first ↔ bits ∈ second) →
      algebra.combineAll first = algebra.combineAll second

/-- A pattern of a width is a bit vector of that width. -/
theorem Bits.exists_vector {width : Nat} (positive : 0 < width) {bits : Bits}
    (same : bits.width = width) : ∃ vector, bits = ⟨width, positive, vector⟩ := by
  subst same
  exact ⟨bits.value, rfl⟩

namespace Algebra.Laws

variable {algebra : Algebra} (laws : algebra.Laws) {width : Nat} (positive : 0 < width)
include laws

theorem combine_eq_ok (first second : BitVec width) :
    algebra.combine ⟨width, positive, first⟩ ⟨width, positive, second⟩ =
      .ok ⟨width, positive, laws.join first second⟩ := by
  rw [laws.combine, laws.zip_eq_ok]

include positive in
/-- Where combining a pattern with itself changes nothing, lists with the same members give the
same together. -/
theorem combineAll_of_mem_iff (idempotent : algebra.idempotent = true) {first second : List Bits}
    (widths : ∀ bits ∈ first, bits.width = width) (same : ∀ bits, bits ∈ first ↔ bits ∈ second) :
    algebra.combineAll first = algebra.combineAll second := by
  have injective : Function.Injective (Bits.mk width positive) :=
    fun _ _ same => eq_of_heq (Bits.mk.inj same).2
  obtain ⟨firsts, rfl⟩ := exists_vectors positive widths
  obtain ⟨seconds, rfl⟩ := exists_vectors positive fun bits member =>
    widths bits ((same bits).mpr member)
  have members : ∀ vector, vector ∈ firsts ↔ vector ∈ seconds := fun vector => by
    rw [← List.mem_map_of_injective injective, same, List.mem_map_of_injective injective]
  cases firsts with
  | nil =>
    rw [List.eq_nil_iff_forall_not_mem.mpr fun vector member =>
      List.not_mem_nil ((members vector).mpr member)]
  | cons head rest =>
    have nonempty : seconds ≠ [] :=
      List.ne_nil_of_mem ((members head).mp List.mem_cons_self)
    rw [laws.combineAll_map positive (List.cons_ne_nil head rest),
      laws.combineAll_map positive nonempty, laws.total_of_mem_iff idempotent members]

include positive in
theorem soundAt : algebra.SoundAt width where
  closed first second width width' := by
    obtain ⟨first, rfl⟩ := Bits.exists_vector positive width
    obtain ⟨second, rfl⟩ := Bits.exists_vector positive width'
    exact ⟨_, laws.combine_eq_ok positive first second, rfl⟩
  assoc first second third width width' width'' := by
    obtain ⟨first, rfl⟩ := Bits.exists_vector positive width
    obtain ⟨second, rfl⟩ := Bits.exists_vector positive width'
    obtain ⟨third, rfl⟩ := Bits.exists_vector positive width''
    simp only [laws.combine_eq_ok positive, Except.bind, laws.assoc]
  comm first second width width' := by
    obtain ⟨first, rfl⟩ := Bits.exists_vector positive width
    obtain ⟨second, rfl⟩ := Bits.exists_vector positive width'
    rw [laws.combine_eq_ok, laws.combine_eq_ok, laws.comm]
  identity := by
    refine ⟨_, algebra.identity.value_eq positive, fun bits width => ?_⟩
    obtain ⟨vector, rfl⟩ := Bits.exists_vector positive width
    rw [laws.combine_eq_ok, laws.combine_eq_ok, laws.identity_join, laws.join_identity]
    exact ⟨rfl, rfl⟩
  absorbing element declared := by
    refine ⟨_, element.value_eq positive, fun bits width => ?_⟩
    obtain ⟨vector, rfl⟩ := Bits.exists_vector positive width
    rw [laws.combine_eq_ok, laws.combine_eq_ok, laws.comm vector, laws.absorbing_join declared]
    exact ⟨rfl, rfl⟩
  self idempotent bits width := by
    obtain ⟨vector, rfl⟩ := Bits.exists_vector positive width
    rw [laws.combine_eq_ok, laws.join_self idempotent]
  total patterns nonempty widths := by
    obtain ⟨vectors, rfl⟩ := exists_vectors positive widths
    exact ⟨_, laws.combineAll_map positive fun empty => nonempty (empty ▸ rfl), rfl⟩
  perm first second widths perm := by
    obtain ⟨vectors, rfl⟩ := exists_vectors positive widths
    exact laws.combineAll_perm positive perm
  repeats idempotent first second widths same :=
    laws.combineAll_of_mem_iff positive idempotent widths same

end Algebra.Laws

/-- Sums, products and bitwise operations compute with the algebra that the table has for them, and
what the table says of it holds at every width. Conjunctions and disjunctions are marked as those
that repetitions do not change, and they and products have an absorbing element. An element is
recognized exactly in its value at the width of the pattern. -/
theorem algebra_table_sound :
    (∀ kind ∈ [Kind.add, .mul, .and, .or, .xor], ∃ algebra, kind.algebra? = some algebra ∧
      (∀ operation : Operation, operation.kind = kind → ∀ arguments,
        operation.evaluate arguments = kind.ofAll algebra arguments) ∧
      (algebra.idempotent = true ↔ kind = .and ∨ kind = .or) ∧
      (algebra.absorbing.isSome = true ↔ kind = .mul ∨ kind = .and ∨ kind = .or) ∧
      ∀ width, 0 < width → algebra.SoundAt width) ∧
    ∀ (element : Element) (bits : Bits),
      element.holds bits = true ↔ element.value bits.width = .ok bits := by
  refine ⟨fun kind combined => ?_, Element.holds_iff_value⟩
  obtain ⟨algebra, known⟩ : ∃ algebra, kind.algebra? = some algebra := by
    cases kind <;> first | exact ⟨_, rfl⟩ | simp at combined
  obtain ⟨laws⟩ := Kind.nonempty_laws known
  refine ⟨algebra, known, ?_, idempotent_iff known, ?_, fun width => laws.soundAt⟩
  · rintro operation rfl arguments
    exact Operation.evaluate_of_algebra? known arguments
  · cases kind <;> cases known <;> decide

/-- A disjunction of four patterns is the one of the three that are different, in another order. At
the width of a single bit the identity of products has every bit set. -/
theorem algebra_table_sound_samples :
    let nibble (number : Nat) : Bits := ⟨4, by decide, BitVec.ofNat 4 number⟩
    Algebra.or.combineAll [nibble 1, nibble 8, nibble 1, nibble 2] = .ok (some (nibble 11)) ∧
      Algebra.or.combineAll [nibble 2, nibble 8, nibble 1] = .ok (some (nibble 11)) ∧
      ∀ bits : Bits, bits.width = 1 →
        Bits.mul ⟨1, by decide, BitVec.allOnes 1⟩ bits = .ok bits := by
  intro nibble
  obtain ⟨algebra, known, _, _, _, sound⟩ := algebra_table_sound.1 .or (by decide)
  obtain ⟨product, knownProduct, _, _, _, soundProduct⟩ :=
    algebra_table_sound.1 .mul (by decide)
  cases known
  cases knownProduct
  have computed : Algebra.or.combineAll [nibble 2, nibble 8, nibble 1] =
      .ok (some (nibble 11)) := by decide
  have same := (sound 4 (by decide)).repeats rfl
    [nibble 1, nibble 8, nibble 1, nibble 2] [nibble 2, nibble 8, nibble 1]
    (by decide) (fun bits => by simp only [List.mem_cons, List.not_mem_nil]; tauto)
  obtain ⟨identity, valued, unchanged⟩ := (soundProduct 1 (by decide)).identity
  cases valued
  exact ⟨same.trans computed, computed, fun bits single => (unchanged bits single).1⟩

end BitGraph
