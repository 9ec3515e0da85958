/-
This file says what it takes for an operation to be well formed, apart from the
order in which the rules are judged: the attribute and the number of operands
are those of the kind, every operand has a type, and the widths fit. Being well
formed therefore depends on the types of the operands alone, and an operation
stays well formed when values keep their types or give way to others of the
same type.
-/

import BitGraph.Proofs.Lists
import BitGraph.Typing
import Mathlib

namespace BitGraph

/-! ### Substitution -/

/-- What is read when one value stands in the place of another. -/
def Value.substitute (source target value : Value) : Value :=
  if value = source then target else value

/-- The operation that reads one value in the place of another. -/
def Operation.substitute (source target : Value) (operation : Operation) : Operation :=
  { operation with operands := operation.operands.map (Value.substitute source target) }

theorem Value.substitute_self (source target : Value) :
    Value.substitute source target source = target :=
  if_pos rfl

theorem Value.substitute_other {source target value : Value} (other : value ≠ source) :
    Value.substitute source target value = value :=
  if_neg other

/-- What is read is read as before, or it stands in the place of what was read. -/
theorem Value.substitute_eq_iff {source target : Value} (apart : source ≠ target)
    (now value : Value) : Value.substitute source target now = value ↔
      value ≠ source ∧ (now = value ∨ value = target ∧ now = source) := by
  by_cases here : now = source
  · subst here
    rw [substitute_self]
    constructor
    · rintro rfl
      exact ⟨apart.symm, .inr ⟨rfl, rfl⟩⟩
    · rintro ⟨other, same | ⟨same, _⟩⟩
      · exact absurd same.symm other
      · exact same.symm
  · rw [substitute_other here]
    constructor
    · rintro rfl
      exact ⟨here, .inl rfl⟩
    · rintro ⟨_, same | ⟨_, same⟩⟩
      · exact same
      · exact absurd same here

/-- An operation that does not read a value stays as it is when another one stands in its place. -/
theorem Operation.substitute_of_not_mem {source : Value} {operation : Operation}
    (unread : source ∉ operation.operands) (target : Value) :
    operation.substitute source target = operation := by
  have operands : operation.operands.map (Value.substitute source target) = operation.operands := by
    refine (List.map_congr_left fun value member => ?_).trans (List.map_id _)
    exact Value.substitute_other fun same => unread (same ▸ member)
  rw [Operation.substitute, operands]

/-! ### Types of operands -/

namespace Scope

/-- The types of values are found exactly if each value has one. -/
theorem types_eq_ok_iff (scope : Scope) (values : List Value) (types : List BitType) :
    scope.types values = .ok types ↔
      List.Forall₂ (fun value type => scope.typeOf value = some type) values types := by
  refine (mapM_eq_ok_iff _ values types).trans ?_
  constructor <;> refine fun each => each.imp fun value type typed => ?_
  · revert typed
    cases scope.typeOf value <;> simp
  · rw [typed]

end Scope

/-! ### Well-formed operations -/

namespace Operation

/-- The typing table: how the result type of an operation goes with the types of its
operands. -/
def WidthsFit (operation : Operation) (types : List BitType) : Prop :=
  match operation.kind.signature.result with
  | .declared => ∀ magnitude, operation.attr = .constant magnitude →
    Bits.fits operation.type.width magnitude = true
  | .sameAsOperands => ∀ type ∈ types, type = operation.type
  | .singleBit => operation.type.width = 1
  | .sumOfOperands => BitType.totalWidth types = operation.type.width
  | .declaredNarrowerOrEqual => ∀ type ∈ types,
    operation.lowBit?.getD 0 + operation.type.width ≤ type.width
  | .declaredWider => ∀ type ∈ types, type.width < operation.type.width

theorem checkWidths_eq_ok_iff (operation : Operation) (types : List BitType) :
    operation.checkWidths types = .ok () ↔ operation.WidthsFit types := by
  simp only [checkWidths, WidthsFit]
  cases operation.kind.signature.result with
  | declared =>
    cases operation.attr with
    | constant magnitude => cases Bits.fits operation.type.width magnitude <;> simp
    | none => simp
    | extract lowBit => simp
  | sameAsOperands =>
    have none_iff : types.find? (· ≠ operation.type) = none ↔
        ∀ type ∈ types, type = operation.type := by simp
    rw [← none_iff]
    simp only
    cases types.find? (· ≠ operation.type) <;> simp
  | singleBit =>
    simp only
    split <;> simp_all
  | sumOfOperands =>
    simp only
    split
    · simp_all
    · split <;> simp_all
  | declaredNarrowerOrEqual =>
    have none_iff : types.find? (fun operand => operand.width <
          operation.lowBit?.getD 0 + operation.type.width) = none ↔
        ∀ type ∈ types, operation.lowBit?.getD 0 + operation.type.width ≤ type.width := by simp
    rw [← none_iff]
    simp only
    cases types.find? _ <;> simp
  | declaredWider =>
    have none_iff : types.find? (fun operand => operation.type.width ≤ operand.width) = none ↔
        ∀ type ∈ types, type.width < operation.type.width := by simp
    rw [← none_iff]
    simp only
    cases types.find? _ <;> simp

/-- An operation of this kind, attribute and result type takes operands of these types. -/
structure Accepts (operation : Operation) (strictness : Strictness)
    (types : List BitType) : Prop where
  attr : operation.attr.hasShape operation.kind.signature.attr = true
  arity : (operation.kind.arity strictness).accepts types.length = true
  widths : operation.WidthsFit types

/-- Only kinds that take any number of operands are judged by the strictness in force. -/
theorem Accepts.of_fixed {operation : Operation} {strictness : Strictness}
    {types : List BitType} (accepts : operation.Accepts strictness types)
    (fixed : operation.kind.signature.operands ≠ .variadic) (other : Strictness) :
    operation.Accepts other types := by
  refine { accepts with arity := ?_ }
  have arity := accepts.arity
  unfold Kind.arity Signature.arity at arity ⊢
  cases shape : operation.kind.signature.operands <;> rw [shape] at arity fixed <;>
    first | exact arity | exact absurd rfl fixed

/-- Only constants take no operands. -/
theorem Accepts.ne_nil {operation : Operation} {strictness : Strictness} {types : List BitType}
    (accepts : operation.Accepts strictness types) (strict : 1 ≤ strictness.minArity)
    (reads : operation.kind.signature.operands ≠ .nullary) : types ≠ [] := by
  rintro rfl
  have arity := accepts.arity
  unfold Kind.arity Signature.arity at arity
  cases shape : operation.kind.signature.operands <;> rw [shape] at arity reads
  case nullary => exact reads rfl
  case unary | binary | atLeastOne => cases arity
  case variadic => exact absurd (strict.trans (of_decide_eq_true arity)) (by simp)

/-- What being well formed amounts to. -/
theorem verify_eq_ok_iff (operation : Operation) (scope : Scope) (strictness : Strictness) :
    operation.verify scope strictness = .ok () ↔
      ∃ types, List.Forall₂ (fun value type => scope.typeOf value = some type)
        operation.operands types ∧ operation.Accepts strictness types := by
  have judged : operation.verify scope strictness = .ok () ↔
      operation.attr.hasShape operation.kind.signature.attr = true ∧
        (operation.kind.arity strictness).accepts operation.operands.length = true ∧
        ∃ types, scope.types operation.operands = .ok types ∧
          operation.checkWidths types = .ok () := by
    unfold verify
    by_cases shape : operation.attr.hasShape operation.kind.signature.attr = true
    · by_cases arity : (operation.kind.arity strictness).accepts operation.operands.length = true
      · cases found : scope.types operation.operands with
        | error reason => simp [shape, arity, Except.bind]
        | ok types => simp [shape, arity, Except.bind]
      · simp [shape, arity]
    · simp [shape]
  simp only [judged, Scope.types_eq_ok_iff, checkWidths_eq_ok_iff]
  constructor
  · rintro ⟨attr, arity, types, each, widths⟩
    exact ⟨types, each, attr, each.length_eq ▸ arity, widths⟩
  · rintro ⟨types, each, accepts⟩
    exact ⟨accepts.attr, each.length_eq ▸ accepts.arity, types, each, accepts.widths⟩

theorem kind_of_constant? {operation : Operation} {bits : Bits}
    (known : operation.constant? = some bits) : operation.kind = .constant := by
  unfold constant? at known
  split at known
  · rename_i kind _
    exact kind
  · cases known

/-- A well-formed constant reads nothing. -/
theorem operands_of_constant {operation : Operation} {scope : Scope} {strictness : Strictness}
    (verified : operation.verify scope strictness = .ok ())
    (constant : operation.kind = .constant) : operation.operands = [] := by
  obtain ⟨types, each, accepts⟩ := (operation.verify_eq_ok_iff scope strictness).mp verified
  have arity := accepts.arity
  rw [constant, ← each.length_eq] at arity
  exact List.length_eq_zero_iff.mp (beq_iff_eq.mp arity)

/-- The operands of a well-formed operation have types. -/
theorem exists_type_of_verify {operation : Operation} {scope : Scope} {strictness : Strictness}
    (verified : operation.verify scope strictness = .ok ()) {value : Value}
    (member : value ∈ operation.operands) : ∃ type, scope.typeOf value = some type := by
  obtain ⟨types, each, _⟩ := (operation.verify_eq_ok_iff scope strictness).mp verified
  obtain ⟨type, _, typed⟩ := exists_of_forall₂ each member
  exact ⟨type, typed⟩

/-- An operation stays well formed where its operands keep their types. -/
theorem verify_of_typeOf {operation : Operation} {before after : Scope}
    {strictness : Strictness} (verified : operation.verify before strictness = .ok ())
    (kept : ∀ value ∈ operation.operands, after.typeOf value = before.typeOf value) :
    operation.verify after strictness = .ok () := by
  rw [verify_eq_ok_iff] at verified ⊢
  obtain ⟨types, each, accepts⟩ := verified
  refine ⟨types, ?_, accepts⟩
  rw [List.forall₂_iff_get] at each ⊢
  refine ⟨each.1, fun index here there => ?_⟩
  rw [kept _ (List.get_mem _ _), each.2 index here there]

/-- An operation stays well formed where one of its operands gives way to another value of the
same type. -/
theorem verify_substitute {operation : Operation} {scope : Scope} {strictness : Strictness}
    (verified : operation.verify scope strictness = .ok ()) {source target : Value}
    (same : scope.typeOf target = scope.typeOf source) :
    (operation.substitute source target).verify scope strictness = .ok () := by
  rw [verify_eq_ok_iff] at verified ⊢
  obtain ⟨types, each, accepts⟩ := verified
  refine ⟨types, List.forall₂_map_left_iff.mpr (each.imp fun value type typed => ?_),
    accepts.attr, accepts.arity, accepts.widths⟩
  by_cases here : value = source
  · rw [here, Value.substitute_self, same, ← here, typed]
  · rw [Value.substitute_other here, typed]

end Operation

end BitGraph
