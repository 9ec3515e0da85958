/-
This file proves the table of algebras at every width. The operation of each
algebra is associative and commutative on bit vectors, its identity changes
nothing and its absorbing element decides the result. Combining a list of
patterns of one width therefore gives a total that does not depend on the order
of the list, splits along parts of it, and, where repeating a pattern changes
nothing, does not depend on repetitions either.
-/

import BitGraph.Canonical
import BitGraph.Kind.Signature
import BitGraph.Proofs.Bits.Identities

namespace BitGraph

/-! ### Distinguished patterns -/

/-- The bit vector of an element. -/
def Element.pattern (element : Element) (width : Nat) : BitVec width :=
  match element with
  | .zero => BitVec.ofNat width 0
  | .one => BitVec.ofNat width 1
  | .allOnes => BitVec.allOnes width

theorem Element.holds_iff (element : Element) (bits : Bits) :
    element.holds bits = true ↔ bits.value = element.pattern bits.width := by
  obtain ⟨width, positive, value⟩ := bits
  cases element with
  | zero => exact Bits.isZero_iff _
  | one => exact Bits.isOne_iff _
  | allOnes =>
    rw [holds, Bits.isAllOnes, Bool.and_eq_true, beq_iff_eq, pattern]
    refine and_iff_right_of_imp fun same => ?_
    rw [show value = BitVec.allOnes width from same, BitVec.msb_allOnes positive]

/-! ### Laws -/

/-- The laws of an algebra, stated of the bit vectors that its operation works on. -/
structure Algebra.Laws (algebra : Algebra) where
  join : {width : Nat} → BitVec width → BitVec width → BitVec width
  combine : algebra.combine = Bits.zip join
  assoc : ∀ {width : Nat} (first second third : BitVec width),
    join (join first second) third = join first (join second third)
  comm : ∀ {width : Nat} (first second : BitVec width), join first second = join second first
  identity_join : ∀ {width : Nat} (vector : BitVec width),
    join (algebra.identity.pattern width) vector = vector
  absorbing_join : ∀ {element : Element}, algebra.absorbing = some element →
    ∀ {width : Nat} (vector : BitVec width),
      join (element.pattern width) vector = element.pattern width
  join_self : algebra.idempotent = true →
    ∀ {width : Nat} (vector : BitVec width), join vector vector = vector

namespace Algebra

def addLaws : add.Laws where
  join first second := first + second
  combine := funext fun left => funext fun right => Bits.add_eq_zip left right
  assoc := BitVec.add_assoc
  comm := BitVec.add_comm
  identity_join := BitVec.zero_add
  absorbing_join absorbing := by cases absorbing
  join_self idempotent := by cases idempotent

def mulLaws : mul.Laws where
  join first second := first * second
  combine := funext fun left => funext fun right => Bits.mul_eq_zip left right
  assoc := BitVec.mul_assoc
  comm := BitVec.mul_comm
  identity_join := BitVec.one_mul
  absorbing_join absorbing := by
    cases absorbing
    exact fun vector => BitVec.zero_mul
  join_self idempotent := by cases idempotent

def andLaws : and.Laws where
  join first second := first &&& second
  combine := rfl
  assoc := BitVec.and_assoc
  comm := BitVec.and_comm
  identity_join vector := BitVec.allOnes_and
  absorbing_join absorbing := by
    cases absorbing
    exact fun vector => BitVec.zero_and
  join_self _ _ _ := BitVec.and_self

def orLaws : or.Laws where
  join first second := first ||| second
  combine := rfl
  assoc := BitVec.or_assoc
  comm := BitVec.or_comm
  identity_join vector := BitVec.zero_or
  absorbing_join absorbing := by
    cases absorbing
    exact fun vector => BitVec.allOnes_or
  join_self _ _ _ := BitVec.or_self

def xorLaws : xor.Laws where
  join first second := first ^^^ second
  combine := rfl
  assoc := BitVec.xor_assoc
  comm := BitVec.xor_comm
  identity_join vector := BitVec.zero_xor
  absorbing_join absorbing := by cases absorbing
  join_self idempotent := by cases idempotent

end Algebra

/-- Every algebra in the table obeys the laws. -/
theorem Kind.nonempty_laws {kind : Kind} {algebra : Algebra}
    (known : kind.algebra? = some algebra) : Nonempty algebra.Laws := by
  cases kind <;> cases known
  case add => exact ⟨Algebra.addLaws⟩
  case mul => exact ⟨Algebra.mulLaws⟩
  case and => exact ⟨Algebra.andLaws⟩
  case or => exact ⟨Algebra.orLaws⟩
  case xor => exact ⟨Algebra.xorLaws⟩

/-- The kinds with an algebra take any number of operands of their own type. -/
theorem Kind.signature_of_algebra? {kind : Kind} {algebra : Algebra}
    (known : kind.algebra? = some algebra) :
    kind.signature = ⟨.variadic, .sameAsOperands, .none⟩ := by
  cases kind <;> cases known <;> rfl

theorem Kind.commutative_of_algebra? {kind : Kind} {algebra : Algebra}
    (known : kind.algebra? = some algebra) : algebra.commutative = true := by
  cases kind <;> cases known <;> rfl

/-! ### Totals -/

namespace Algebra.Laws

variable {algebra : Algebra} (laws : algebra.Laws) {width : Nat}

/-- All bit vectors of a list combined. -/
def total (vectors : List (BitVec width)) : BitVec width :=
  vectors.foldr laws.join (algebra.identity.pattern width)

theorem join_identity (vector : BitVec width) :
    laws.join vector (algebra.identity.pattern width) = vector := by
  rw [laws.comm, laws.identity_join]

theorem join_left_comm (first second third : BitVec width) :
    laws.join first (laws.join second third) = laws.join second (laws.join first third) := by
  rw [← laws.assoc, laws.comm first second, laws.assoc]

theorem total_cons (vector : BitVec width) (rest : List (BitVec width)) :
    laws.total (vector :: rest) = laws.join vector (laws.total rest) := rfl

theorem total_singleton (vector : BitVec width) : laws.total [vector] = vector :=
  laws.join_identity vector

theorem total_append (first second : List (BitVec width)) :
    laws.total (first ++ second) = laws.join (laws.total first) (laws.total second) := by
  induction first with
  | nil => exact (laws.identity_join _).symm
  | cons vector rest inductionHypothesis =>
    rw [List.cons_append, total_cons, total_cons, inductionHypothesis, laws.assoc]

/-- The order of a list does not matter for its total. -/
theorem total_perm {first second : List (BitVec width)} (perm : first.Perm second) :
    laws.total first = laws.total second := by
  induction perm with
  | nil => rfl
  | cons vector _ inductionHypothesis => rw [total_cons, total_cons, inductionHypothesis]
  | swap first second rest =>
    rw [total_cons, total_cons, total_cons, total_cons, laws.join_left_comm]
  | trans _ _ first second => exact first.trans second

/-- The total of a list is made of the total of a part of it and that of the rest. -/
theorem total_partition (part : Value → Bool) (vector : Value → BitVec width)
    (values : List Value) :
    laws.total (values.map vector) =
      laws.join (laws.total ((values.filter fun value => !part value).map vector))
        (laws.total ((values.filter part).map vector)) := by
  rw [laws.comm, ← total_append, ← List.map_append]
  exact laws.total_perm ((List.filter_append_perm part values).symm.map vector)

/-- Where repeating a pattern changes nothing, neither does dropping repetitions. -/
theorem total_dropRepeats (idempotent : algebra.idempotent = true)
    (vector : Value → BitVec width) (values : List Value) :
    laws.total ((dropRepeats values).map vector) = laws.total (values.map vector) := by
  fun_induction dropRepeats values with
  | case1 second rest inductionHypothesis =>
    rw [inductionHypothesis]
    calc laws.total ((second :: rest).map vector)
        = laws.join (laws.join (vector second) (vector second))
            (laws.total (rest.map vector)) := by
          rw [laws.join_self idempotent]
          rfl
      _ = laws.total ((second :: second :: rest).map vector) := laws.assoc _ _ _
  | case2 first second rest _ inductionHypothesis =>
    rw [List.map_cons, total_cons, inductionHypothesis]
    rfl
  | case3 values _ => rfl

theorem total_canonicalValues (vector : Value → BitVec width) (values : List Value) :
    laws.total ((canonicalValues algebra values).map vector) =
      laws.total (values.map vector) := by
  have sorted : laws.total ((values.mergeSort Value.le).map vector) =
      laws.total (values.map vector) :=
    laws.total_perm ((List.mergeSort_perm values Value.le).map vector)
  unfold canonicalValues
  split
  · rename_i idempotent
    rw [laws.total_dropRepeats idempotent, sorted]
  · exact sorted

/-! ### Combining patterns of one width -/

theorem zip_eq_ok (positive : 0 < width) (first second : BitVec width) :
    Bits.zip laws.join ⟨width, positive, first⟩ ⟨width, positive, second⟩ =
      .ok ⟨width, positive, laws.join first second⟩ := by
  simp [Bits.zip]

theorem foldlM_combine (positive : 0 < width) (first : BitVec width)
    (rest : List (BitVec width)) :
    (rest.map (Bits.mk width positive)).foldlM algebra.combine ⟨width, positive, first⟩ =
      .ok ⟨width, positive, laws.total (first :: rest)⟩ := by
  induction rest generalizing first with
  | nil =>
    rw [total_singleton]
    rfl
  | cons second rest inductionHypothesis =>
    rw [List.map_cons, List.foldlM_cons, laws.combine, laws.zip_eq_ok]
    refine Eq.trans ?_ (inductionHypothesis (laws.join first second) |>.trans ?_)
    · rw [laws.combine]
      rfl
    · rw [total_cons, total_cons, total_cons, laws.assoc]

/-- Combining patterns of one width gives their total. -/
theorem combineAll_map (positive : 0 < width) {vectors : List (BitVec width)}
    (nonempty : vectors ≠ []) :
    algebra.combineAll (vectors.map (Bits.mk width positive)) =
      .ok (some ⟨width, positive, laws.total vectors⟩) := by
  cases vectors with
  | nil => exact absurd rfl nonempty
  | cons first rest =>
    rw [List.map_cons, combineAll, laws.foldlM_combine]
    rfl

end Algebra.Laws

end BitGraph
