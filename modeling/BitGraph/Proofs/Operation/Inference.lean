/-
This file proves that inferring a result type agrees with judging one. Inference
looks at the first operand alone, or adds the widths up to the largest one that can
be declared; the judgement looks at all operands. Where the operands determine the
type, an operation is built without a declared type exactly if it is built with
some declared type, and there is one such type at most.
-/

import BitGraph.Blueprint
import BitGraph.Proofs.Operation.TypingTable

namespace BitGraph

/-! ### Kinds that need a declared type -/

/-- The kinds whose result type is declared. -/
def Kind.declaring : List Kind :=
  [.constant, .extract, .signExtend, .zeroExtend]

theorem Kind.isDeclared_iff (kind : Kind) :
    kind.signature.result.isDeclared = true ↔ kind ∈ declaring := by
  cases kind <;> decide

/-- Nothing is inferred for the kinds whose result type is declared. -/
theorem Kind.inferType_of_declaring {kind : Kind} (declares : kind ∈ declaring)
    (strictness : Strictness) (types : List BitType) :
    kind.inferType strictness types = .error (.missingResultType kind) := by
  rw [← isDeclared_iff] at declares
  unfold inferType
  cases result : kind.signature.result <;> rw [result] at declares <;>
    first | rfl | cases declares

/-! ### Inference and judgement -/

namespace BitType

theorem concatenated?_eq_some_iff (types : List BitType) (type : BitType) :
    concatenated? types = some type ↔ totalWidth types = type.width ∧ type.Declarable := by
  unfold concatenated? Declarable
  constructor
  · intro joined
    split at joined
    · split at joined
      · cases joined
        exact ⟨rfl, ‹_›⟩
      · cases joined
    · cases joined
  · rintro ⟨total, declarable⟩
    obtain ⟨width, positive⟩ := type
    subst total
    rw [dif_pos positive, if_pos declarable]

end BitType

section Inferred

variable {operation : Operation} {strictness : Strictness} {types : List BitType} {type : BitType}

/-- The type of an operation that takes its operands is the one that is inferred from them. -/
theorem Operation.Accepts.inferType (accepts : operation.Accepts strictness types)
    (strict : 1 ≤ strictness.minArity) (determined : operation.kind ∉ Kind.declaring)
    (declarable : operation.type.Declarable) :
    operation.kind.inferType strictness types = .ok operation.type := by
  have widths := accepts.widths
  rw [← Kind.isDeclared_iff] at determined
  have reads : operation.kind.signature.operands ≠ .nullary := by
    revert determined
    cases operation.kind <;> decide
  obtain ⟨first, rest, rfl⟩ := List.exists_cons_of_ne_nil (accepts.ne_nil strict reads)
  unfold Kind.inferType
  unfold WidthsFit at widths
  cases result : operation.kind.signature.result with
  | declared | declaredNarrowerOrEqual | declaredWider =>
    rw [result] at determined
    exact absurd rfl determined
  | singleBit =>
    rw [result] at widths
    exact congrArg Except.ok (BitType.eq_of_width widths.symm)
  | sameAsOperands =>
    rw [result] at widths
    exact congrArg Except.ok (widths first List.mem_cons_self)
  | sumOfOperands =>
    rw [result] at widths
    have joined := (BitType.concatenated?_eq_some_iff _ _).mpr ⟨widths, declarable⟩
    simp only [joined]

/-- Operands whose types can be declared give a type that can be declared. -/
theorem Kind.declarable_of_inferType {kind : Kind}
    (inferred : kind.inferType strictness types = .ok type)
    (declarable : ∀ operand ∈ types, operand.Declarable) : type.Declarable := by
  unfold inferType at inferred
  cases result : kind.signature.result with
  | declared | declaredNarrowerOrEqual | declaredWider =>
    rw [result] at inferred
    cases inferred
  | singleBit =>
    rw [result] at inferred
    cases inferred
    exact (by decide : BitType.bit.Declarable)
  | sameAsOperands =>
    rw [result] at inferred
    cases types with
    | nil => cases inferred
    | cons first rest =>
      cases inferred
      exact declarable _ List.mem_cons_self
  | sumOfOperands =>
    rw [result] at inferred
    cases types with
    | nil => cases inferred
    | cons first rest =>
      cases joined : BitType.concatenated? (first :: rest) with
      | none => simp [joined] at inferred
      | some total =>
        simp only [joined, Except.ok.injEq] at inferred
        exact ((BitType.concatenated?_eq_some_iff _ _).mp (joined.trans (congrArg some inferred))).2

end Inferred

/-! ### Building -/

namespace Operation

section Build

variable {scope : Scope} {strictness : Strictness} {kind : Kind} {operands : List Value}
  {attr : Attribute}

theorem build_some_eq_ok_iff {type : BitType} {operation : Operation} :
    build scope strictness kind operands attr (some type) = .ok operation ↔
      operation = ⟨kind, operands, attr, type⟩ ∧ operation.verify scope strictness = .ok () := by
  simp only [build, bind, Except.bind, pure, Except.pure]
  cases judged : verify ⟨kind, operands, attr, type⟩ scope strictness with
  | ok =>
    constructor
    · rintro ⟨⟩
      exact ⟨rfl, judged⟩
    · rintro ⟨rfl, _⟩
      rfl
  | error reason =>
    constructor
    · rintro ⟨⟩
    · rintro ⟨rfl, accepted⟩
      rw [judged] at accepted
      cases accepted

/-- Building without a declared type is building with the inferred one. -/
theorem build_none : build scope strictness kind operands attr none =
    ((scope.types operands).bind (kind.inferType strictness)).bind fun type =>
      build scope strictness kind operands attr (some type) :=
  rfl

theorem build_none_eq_ok_iff {operation : Operation} :
    build scope strictness kind operands attr none = .ok operation ↔
      ∃ type, (scope.types operands).bind (kind.inferType strictness) = .ok type ∧
        build scope strictness kind operands attr (some type) = .ok operation := by
  rw [build_none]
  cases (scope.types operands).bind (kind.inferType strictness) with
  | error reason => simp [Except.bind]
  | ok type => simp only [Except.bind, Except.ok.injEq, exists_eq_left']

theorem inferType_of_build_some {type : BitType} {operation : Operation}
    (strict : 1 ≤ strictness.minArity) (determined : kind ∉ Kind.declaring)
    (declarable : type.Declarable)
    (built : build scope strictness kind operands attr (some type) = .ok operation) :
    (scope.types operands).bind (kind.inferType strictness) = .ok type := by
  obtain ⟨rfl, judged⟩ := build_some_eq_ok_iff.mp built
  obtain ⟨types, typed, accepts⟩ := (verify_eq_ok_iff _ _ _).mp judged
  rw [(scope.types_eq_ok_iff operands types).mpr typed]
  exact accepts.inferType strict determined declarable

theorem exists_types_of_inferType {type : BitType}
    (inferred : (scope.types operands).bind (kind.inferType strictness) = .ok type) :
    ∃ types, scope.types operands = .ok types ∧ kind.inferType strictness types = .ok type := by
  cases found : scope.types operands with
  | error reason =>
    rw [found] at inferred
    cases inferred
  | ok types =>
    rw [found] at inferred
    exact ⟨types, rfl, inferred⟩

theorem declarable_of_inferType (declarable : scope.Declarable) {type : BitType}
    (inferred : (scope.types operands).bind (kind.inferType strictness) = .ok type) :
    type.Declarable := by
  obtain ⟨types, found, determined⟩ := exists_types_of_inferType inferred
  refine Kind.declarable_of_inferType determined fun operand member => ?_
  have typed := (scope.types_eq_ok_iff operands types).mp found
  obtain ⟨value, _, known⟩ := exists_of_forall₂ typed.flip member
  exact declarable value operand known

/-- Where the operands determine the result type, building without a declared type comes to the
same operations as building with all types there are to declare, and only one of those succeeds.
Where they do not determine it, nothing is built without a declared type. -/
theorem build_infers (scope : Scope) (strictness : Strictness) (kind : Kind)
    (operands : List Value) (attr : Attribute) (strict : 1 ≤ strictness.minArity)
    (declarable : scope.Declarable) :
    let build := Operation.build scope strictness kind operands attr
    (kind ∉ Kind.declaring →
      ((∃ operation, build none = .ok operation) ↔
        ∃ type, type.Declarable ∧ ∃ operation, build (some type) = .ok operation) ∧
      (∀ type operation, type.Declarable → build (some type) = .ok operation →
        build none = .ok operation) ∧
      (∀ first second one other, first.Declarable → second.Declarable →
        build (some first) = .ok one → build (some second) = .ok other → first = second)) ∧
    (kind ∈ Kind.declaring → ∀ operation, build none ≠ .ok operation) := by
  intro build
  refine ⟨fun determined => ?_, fun declares operation built => ?_⟩
  · have inferred {type : BitType} {operation : Operation} (declared : type.Declarable)
        (built : build (some type) = .ok operation) :=
      inferType_of_build_some strict determined declared built
    have without (type : BitType) (operation : Operation) (declared : type.Declarable)
        (built : build (some type) = .ok operation) : build none = .ok operation :=
      build_none_eq_ok_iff.mpr ⟨type, inferred declared built, built⟩
    refine ⟨⟨?_, ?_⟩, without, ?_⟩
    · rintro ⟨operation, built⟩
      obtain ⟨type, found, declared⟩ := build_none_eq_ok_iff.mp built
      exact ⟨type, declarable_of_inferType declarable found, operation, declared⟩
    · rintro ⟨type, declared, operation, built⟩
      exact ⟨operation, without type operation declared built⟩
    · intro first second one other firstDeclared secondDeclared builtFirst builtSecond
      exact Except.ok.inj
        ((inferred firstDeclared builtFirst).symm.trans (inferred secondDeclared builtSecond))
  · obtain ⟨type, found, _⟩ := build_none_eq_ok_iff.mp built
    obtain ⟨types, _, inferred⟩ := exists_types_of_inferType found
    cases (Kind.inferType_of_declaring declares strictness types).symm.trans inferred

/-- Two inputs that are joined: the one declared type that fits is the inferred one. -/
theorem build_infers_joined :
    let byte : BitType := ⟨8, by decide⟩
    let scope : Scope := .ofInputs [byte, .bit]
    let build := Operation.build scope {} .concat [.input 0, .input 1] .none
    let joined : Operation := ⟨.concat, [.input 0, .input 1], .none, ⟨9, by decide⟩⟩
    scope.Declarable ∧ build none = .ok joined ∧ ∀ type : BitType, type.Declarable →
      ∀ operation, build (some type) = .ok operation → operation = joined := by
  intro byte scope build joined
  have declarable : scope.Declarable := Scope.declarable_ofInputs (by decide)
  have built : build none = .ok joined := by decide
  obtain ⟨_, without, _⟩ := (build_infers scope {} .concat [.input 0, .input 1] .none (by decide)
    declarable).1 (by decide)
  refine ⟨declarable, built, fun type declared operation accepted => ?_⟩
  exact Except.ok.inj ((without type operation declared accepted).symm.trans built)

end Build

end Operation

end BitGraph
