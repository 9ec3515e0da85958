/-
This file proves that folding proposes nothing wrong. Whatever it proposes for a
well-formed operation has the type of the operation, is well formed itself, and
has the pattern of the operation wherever the operation has one. The scope may be
any, as long as its types are those of its operations and these are well formed.
-/

import BitGraph.Proofs.Proposal.Combined

namespace BitGraph

variable {scope : Scope} {operation : Operation} {strictness : Strictness}
  {options : FoldOptions} {replacement : Replacement}

/-! ### Operations on constants -/

theorem Scope.constants?_eq_some_iff (scope : Scope) (values : List Value)
    (patterns : List Bits) :
    scope.constants? values = some patterns ↔
      List.Forall₂ (fun value bits => scope.constant? value = some bits) values patterns :=
  mapM_eq_some_iff _ values patterns

theorem forall₂_width_ofBits (patterns : List Bits) :
    List.Forall₂ (fun bits type => bits.width = type.width) patterns
      (patterns.map BitType.ofBits) :=
  List.forall₂_map_right_iff.mpr (List.forall₂_same.mpr fun _ _ => rfl)

/-- An operation on constants takes patterns of their widths. -/
theorem accepts_constants (typed : scope.Typed)
    (verified : operation.verify scope strictness = .ok ()) {arguments : List Bits}
    (constants : scope.constants? operation.operands = some arguments) :
    operation.Accepts strictness (arguments.map BitType.ofBits) := by
  rw [Scope.constants?_eq_some_iff] at constants
  obtain ⟨types, each, accepts⟩ := (operation.verify_eq_ok_iff scope strictness).mp verified
  have found : List.Forall₂ (fun value type => scope.typeOf value = some type)
      operation.operands (arguments.map BitType.ofBits) :=
    List.forall₂_map_right_iff.mpr
      (constants.imp fun value bits constant => Scope.typeOf_of_constant? typed constant)
  rw [← Scope.types_eq_ok_iff] at each found
  exact Except.ok.inj (each.symm.trans found) ▸ accepts

/-- An operation on constants is what it evaluates to. -/
theorem suits_constants (fixed : operation.kind.signature.operands ≠ .variadic)
    (typed : scope.Typed) (verified : operation.verify scope strictness = .ok ())
    {arguments : List Bits} {bits : Bits}
    (constants : scope.constants? operation.operands = some arguments)
    (computed : operation.evaluate arguments = .ok bits) :
    (Replacement.constant bits).Suits scope operation Refines := by
  have accepts := accepts_constants typed verified constants
  have admits := Operation.evaluate_admits (accepts.of_fixed fixed {}) (by decide)
    (forall₂_width_ofBits arguments)
  rw [computed] at admits
  rw [Scope.constants?_eq_some_iff] at constants
  refine suits_constant admits.width fun outcomes respects => ?_
  have same : operation.operands.map outcomes = arguments.map .ok := by
    rw [← List.forall₂_eq_eq_eq, List.forall₂_map_left_iff, List.forall₂_map_right_iff]
    exact constants.imp respects.constant
  rw [same, Operation.combine_map_ok, computed]
  exact .refl _

theorem suits_foldConstants (fixed : operation.kind.signature.operands ≠ .variadic)
    (typed : scope.Typed) (verified : operation.verify scope strictness = .ok ())
    {otherwise : FoldOutcome}
    (fallback : otherwise = .folded replacement → replacement.Suits scope operation Refines)
    (folded : operation.foldConstants scope otherwise = .folded replacement) :
    replacement.Suits scope operation Refines := by
  unfold Operation.foldConstants at folded
  split at folded
  · rename_i arguments constants
    cases computed : operation.evaluate arguments with
    | error reason =>
      rw [computed] at folded
      cases folded
    | ok bits =>
      rw [computed] at folded
      cases folded
      exact suits_constants fixed typed verified constants computed
  · exact fallback folded

/-! ### Operations on two operands -/

section Binary

variable {left right : Value}
  (binary : operation.kind.signature = ⟨.binary, .sameAsOperands, .none⟩)
  (verified : operation.verify scope strictness = .ok ())

include binary verified in
theorem exists_operands : ∃ left right, operation.operands = [left, right] := by
  obtain ⟨types, each, accepts⟩ := (operation.verify_eq_ok_iff scope strictness).mp verified
  have arity := accepts.arity
  rw [← each.length_eq] at arity
  simp only [Kind.arity, Signature.arity, binary, Arity.accepts, beq_iff_eq] at arity
  exact List.length_eq_two.mp arity

include binary verified in
/-- What an operation makes of two patterns of its width is its result. -/
theorem refines_binary (operands : operation.operands = [left, right]) {outcomes : Outcomes}
    (respects : outcomes.Respects scope) {result : Except GraphError Bits}
    (patterns : ∀ first second : Bits, outcomes left = .ok first → outcomes right = .ok second →
      first.width = operation.type.width → second.width = operation.type.width →
      operation.evaluate [first, second] = result) :
    Refines (operation.combine (operation.operands.map outcomes)) result := by
  refine refines_of_patterns respects verified fun types arguments accepts each typed same => ?_
  obtain ⟨first, second, rfl, firstWidth, secondWidth⟩ :=
    Operation.exists_binary accepts binary typed
  rw [operands, List.map_cons, List.map_singleton, List.map_cons, List.map_singleton,
    List.cons.injEq, List.cons.injEq] at same
  rw [patterns first second same.1 same.2.1 firstWidth secondWidth]
  exact .refl _

include binary verified in
/-- An operation that gives back its first operand can give way to it. -/
theorem suits_left (operands : operation.operands = [left, right])
    (patterns : ∀ outcomes : Outcomes, outcomes.Respects scope → ∀ first second : Bits,
      outcomes right = .ok second → second.width = first.width →
      operation.evaluate [first, second] = .ok first) :
    (Replacement.existing left).Suits scope operation Refines := by
  have member : left ∈ operation.operands := operands ▸ List.mem_cons_self
  refine suits_existing member
    (typeOf_operand (congrArg Signature.result binary) verified member) fun outcomes respects => ?_
  refine refines_binary binary verified operands respects
    fun first second isFirst isSecond firstWidth secondWidth => ?_
  rw [isFirst]
  exact patterns outcomes respects first second isSecond (secondWidth.trans firstWidth.symm)

include binary verified in
/-- An operation that gives zero can give way to it. -/
theorem suits_zero (operands : operation.operands = [left, right])
    (patterns : ∀ outcomes : Outcomes, outcomes.Respects scope → ∀ first second : Bits,
      outcomes left = .ok first → outcomes right = .ok second → second.width = first.width →
      operation.evaluate [first, second] =
        .ok ⟨first.width, first.positive, BitVec.zero first.width⟩) :
    (Replacement.constant operation.type.zero).Suits scope operation Refines := by
  refine suits_constant rfl fun outcomes respects => ?_
  refine refines_binary binary verified operands respects
    fun first second isFirst isSecond firstWidth secondWidth => ?_
  rw [patterns outcomes respects first second isFirst isSecond
    (secondWidth.trans firstWidth.symm)]
  refine congrArg Except.ok (Bits.eq_of_width_of_magnitude firstWidth ?_)
  rw [Bits.magnitude, Bits.magnitude, BitType.zero]
  simp

end Binary

theorem suits_foldDifference (kind : operation.kind = .sub)
    (verified : operation.verify scope strictness = .ok ())
    (folded : operation.foldDifference scope = .folded replacement) :
    replacement.Suits scope operation Refines := by
  have binary : operation.kind.signature = ⟨.binary, .sameAsOperands, .none⟩ := by rw [kind]; rfl
  obtain ⟨left, right, operands⟩ := exists_operands binary verified
  simp only [Operation.foldDifference, operands] at folded
  split at folded
  · rename_i vanishes
    cases folded
    obtain ⟨bits, constant, zero⟩ := (Option.any_eq_true _ _).mp vanishes
    refine suits_left binary verified operands fun outcomes respects first second known same => ?_
    rw [respects.constant right bits constant] at known
    cases known
    rw [Operation.evaluate, kind]
    exact congrArg (Except.mapError GraphError.bits) (Bits.sub_of_isZero same zero)
  · split at folded
    · rename_i equal
      cases folded
      refine suits_zero binary verified operands
        fun outcomes respects first second isFirst isSecond _ => ?_
      rw [equal, isSecond] at isFirst
      cases isFirst
      rw [Operation.evaluate, kind]
      exact congrArg (Except.mapError GraphError.bits) (Bits.sub_self first)
    · cases folded

/-- The divisor of an operation on two operands is the second one. -/
theorem divisor?_eq {left right : Value} (operands : operation.operands = [left, right]) :
    operation.divisor? scope = scope.constant? right := by
  rw [Operation.divisor?, operands]
  rfl

theorem suits_foldQuotient (kind : operation.kind = .div)
    (verified : operation.verify scope strictness = .ok ())
    (folded : operation.foldQuotient scope = .folded replacement) :
    replacement.Suits scope operation Refines := by
  have binary : operation.kind.signature = ⟨.binary, .sameAsOperands, .none⟩ := by rw [kind]; rfl
  obtain ⟨left, right, operands⟩ := exists_operands binary verified
  simp only [Operation.foldQuotient, divisor?_eq operands, operands] at folded
  split at folded
  · rename_i unit
    cases folded
    obtain ⟨bits, constant, one⟩ := (Option.any_eq_true _ _).mp unit
    refine suits_left binary verified operands fun outcomes respects first second known same => ?_
    rw [respects.constant right bits constant] at known
    cases known
    rw [Operation.evaluate, kind]
    exact congrArg (Except.mapError GraphError.bits) (Bits.udiv_of_isOne same one)
  · cases folded

theorem suits_foldRemainder (kind : operation.kind = .mod)
    (verified : operation.verify scope strictness = .ok ())
    (folded : operation.foldRemainder scope = .folded replacement) :
    replacement.Suits scope operation Refines := by
  have binary : operation.kind.signature = ⟨.binary, .sameAsOperands, .none⟩ := by rw [kind]; rfl
  obtain ⟨left, right, operands⟩ := exists_operands binary verified
  simp only [Operation.foldRemainder, divisor?_eq operands] at folded
  split at folded
  · rename_i unit
    cases folded
    obtain ⟨bits, constant, one⟩ := (Option.any_eq_true _ _).mp unit
    refine suits_zero binary verified operands
      fun outcomes respects first second _ known same => ?_
    rw [respects.constant right bits constant] at known
    cases known
    rw [Operation.evaluate, kind]
    exact congrArg (Except.mapError GraphError.bits) (Bits.urem_of_isOne same one)
  · cases folded

theorem suits_foldDivisor {otherwise : FoldOutcome}
    (fallback : otherwise = .folded replacement → replacement.Suits scope operation Refines)
    (folded : operation.foldDivisor scope otherwise = .folded replacement) :
    replacement.Suits scope operation Refines := by
  unfold Operation.foldDivisor at folded
  split at folded
  · cases folded
  · exact fallback folded

/-! ### Operations on one operand -/

/-- An operation that gives back the pattern of its only operand can give way to it. -/
theorem suits_operand (verified : operation.verify scope strictness = .ok ()) {operand : Value}
    (operands : operation.operands = [operand])
    (type : scope.typeOf operand = some operation.type)
    (patterns : ∀ argument : Bits, argument.width = operation.type.width →
      operation.evaluate [argument] = .ok argument) :
    (Replacement.existing operand).Suits scope operation Refines := by
  refine suits_existing (operands ▸ List.mem_cons_self) type fun outcomes respects => ?_
  refine refines_of_patterns respects verified fun types arguments accepts each typed same => ?_
  rw [operands] at each same
  obtain ⟨argument, rfl⟩ : ∃ argument, arguments = [argument] :=
    List.length_eq_one_iff.mp (by simpa using (congrArg List.length same).symm)
  have isArgument : outcomes operand = .ok argument := (List.cons.inj same).1
  have admits := respects.admits operand _ type
  rw [isArgument] at admits ⊢
  rw [patterns argument admits.width]
  exact .refl _

theorem suits_foldReduction
    (kind : operation.kind = .andReduce ∨ operation.kind = .orReduce ∨ operation.kind = .xorReduce)
    (verified : operation.verify scope strictness = .ok ())
    (folded : operation.foldReduction scope = .folded replacement) :
    replacement.Suits scope operation Refines := by
  unfold Operation.foldReduction at folded
  split at folded
  · rename_i operand operands
    split at folded
    · rename_i single
      cases folded
      obtain ⟨types, _, accepts⟩ := (operation.verify_eq_ok_iff scope strictness).mp verified
      have widths := accepts.widths
      have bit : operation.type.width = 1 := by
        rcases kind with kind | kind | kind <;>
          simpa only [Operation.WidthsFit, kind, Kind.signature] using widths
      refine suits_operand verified operands
        (single.trans (congrArg some (BitType.eq_of_width bit.symm))) fun argument width => ?_
      obtain ⟨conjunction, disjunction, parity⟩ := Bits.reduce_of_single (width.trans bit)
      rcases kind with kind | kind | kind <;>
        simp only [Operation.evaluate, kind, Kind.ofOne, Except.mapError, conjunction,
          disjunction, parity]
    · cases folded
  · cases folded

/-- A concatenation of one operand is that operand. -/
theorem suits_single_concat (kind : operation.kind = .concat)
    (verified : operation.verify scope strictness = .ok ()) {operand : Value}
    (operands : operation.operands = [operand]) :
    (Replacement.existing operand).Suits scope operation Refines := by
  obtain ⟨types, each, accepts⟩ := (operation.verify_eq_ok_iff scope strictness).mp verified
  rw [operands] at each
  have widths := accepts.widths
  simp only [Operation.WidthsFit, kind, Kind.signature] at widths
  cases each with
  | @cons _ type _ _ typed rest =>
    cases rest
    have same : type = operation.type := BitType.eq_of_width widths
    refine suits_operand verified operands (same ▸ typed) fun argument width => ?_
    simp only [Operation.evaluate, kind, Kind.ofJoined, List.foldl_nil]

/-! ### Slices -/

theorem combine_slice (kind : operation.kind = .extract) {operand : Value}
    (operands : operation.operands = [operand]) (outcomes : Outcomes) :
    operation.combine (operation.operands.map outcomes) = (outcomes operand).bind fun argument =>
      (argument.extract (operation.lowBit?.getD 0) operation.type.width).mapError .bits := by
  rw [operands]
  cases known : outcomes operand with
  | error reason =>
    rw [List.map_singleton, known]
    rfl
  | ok argument =>
    refine Eq.trans ?_ ((operation.combine_map_ok [argument]).trans ?_)
    · rw [List.map_singleton, List.map_singleton, known]
    · rw [Operation.evaluate, kind]
      rfl

/-- A slice of a slice is a slice of what the inner one slices. -/
theorem suits_nested_slice (kind : operation.kind = .extract) (typed : scope.Typed)
    {others : Strictness} (known : scope.Verified others)
    (verified : operation.verify scope strictness = .ok ())
    {operand source : Value} {lowBit innerLowBit : Nat} {innerType : BitType}
    (carried : operation.lowBit? = some lowBit) (operands : operation.operands = [operand])
    (defined : scope.definition operand =
      some ⟨.extract, [source], .extract innerLowBit, innerType⟩) :
    (Replacement.fresh ⟨.extract, [.existing source], .extract (innerLowBit + lowBit),
      operation.type⟩).Suits scope operation Refines where
  type := rfl
  near value member := by
    rw [List.mem_singleton.mp member, Scope.Near]
    exact .inr ⟨operand, operands ▸ List.mem_cons_self, _, defined, List.mem_cons_self⟩
  fits shape fresh := by
    cases fresh
    obtain ⟨types, each, accepts⟩ := (operation.verify_eq_ok_iff scope strictness).mp verified
    obtain ⟨innerTypes, innerEach, innerAccepts⟩ :=
      (Operation.verify_eq_ok_iff _ scope others).mp (known operand _ defined)
    have widths := accepts.widths
    have innerWidths := innerAccepts.widths
    simp only [Operation.WidthsFit, kind, Kind.signature, carried, Option.getD_some] at widths
    simp only [Operation.WidthsFit, Kind.signature, Operation.lowBit?, Option.getD_some]
      at innerWidths
    rw [operands] at each
    obtain ⟨type, isType, found⟩ := exists_of_forall₂ each List.mem_cons_self
    cases (typed operand _ defined).symm.trans found
    have inside : lowBit + operation.type.width ≤ innerType.width := widths _ isType
    cases innerEach with
    | @cons _ sourceType _ _ innerTyped rest =>
      cases rest
      refine ⟨[sourceType], .cons innerTyped .nil, fun _ _ => ⟨rfl, rfl, ?_⟩⟩
      have innerInside : innerLowBit + innerType.width ≤ sourceType.width :=
        innerWidths sourceType List.mem_cons_self
      simp only [Operation.WidthsFit, Kind.signature, Operation.lowBit?, Option.getD_some,
        List.mem_singleton, forall_eq]
      omega
  size shape fresh := by
    cases fresh
    rw [operands]
    exact Nat.le_refl _
  outcome outcomes respects := by
    rw [combine_slice kind operands, respects.slice operand _ defined rfl,
      combine_slice rfl rfl]
    intro bits computed
    have slice : (⟨.extract, [source], .extract (innerLowBit + lowBit), operation.type⟩ :
      Operation).kind = .extract := rfl
    refine (combine_slice slice rfl outcomes).trans ?_
    cases isSource : outcomes source with
    | error reason =>
      rw [isSource] at computed
      cases computed
    | ok argument =>
      rw [isSource] at computed
      simp only [carried] at computed
      simp only [Except.bind, Operation.lowBit?, Option.getD_some] at computed ⊢
      cases first : argument.extract innerLowBit innerType.width with
      | error reason =>
        rw [first] at computed
        cases computed
      | ok inner =>
        rw [first] at computed
        simp only [Except.mapError] at computed
        cases second : inner.extract lowBit operation.type.width with
        | error reason =>
          rw [second] at computed
          cases computed
        | ok outer =>
          rw [second] at computed
          rw [Bits.extract_extract first second]
          exact computed

theorem suits_foldSlice (kind : operation.kind = .extract) (typed : scope.Typed)
    {others : Strictness} (known : scope.Verified others)
    (verified : operation.verify scope strictness = .ok ())
    (folded : operation.foldSlice scope = .folded replacement) :
    replacement.Suits scope operation Refines := by
  unfold Operation.foldSlice at folded
  split at folded
  · rename_i lowBit operand carried operands
    split at folded
    · rename_i whole
      obtain ⟨rfl, same⟩ := whole
      cases folded
      refine suits_operand verified operands same fun argument width => ?_
      simp only [Operation.evaluate, kind, Kind.ofOne, carried, Option.getD_some, ← width,
        Bits.extract_whole]
      rfl
    · split at folded
      · rename_i source innerLowBit innerType defined
        split at folded
        · cases folded
          exact suits_nested_slice kind typed known verified carried operands defined
        · cases folded
      · cases folded
  · cases folded

/-! ### All operations -/

/-- Folding proposes nothing wrong. -/
theorem fold_suits (typed : scope.Typed) {others : Strictness} (known : scope.Verified others)
    (verified : operation.verify scope strictness = .ok ())
    (folded : operation.fold scope options = .folded replacement) :
    replacement.Suits scope operation Refines := by
  have combined : ∀ algebra, operation.kind.algebra? = some algebra →
      operation.foldCombined scope options algebra = .folded replacement →
        replacement.Suits scope operation Refines := fun algebra isAlgebra proposed =>
    Operation.CombinedRule.suits isAlgebra verified typed (Operation.foldCombined_rule proposed)
  have constants : operation.kind.signature.operands ≠ .variadic → ∀ otherwise,
      (otherwise = .folded replacement → replacement.Suits scope operation Refines) →
        operation.foldConstants scope otherwise = .folded replacement →
          replacement.Suits scope operation Refines := fun fixed otherwise fallback =>
    suits_foldConstants fixed typed verified fallback
  unfold Operation.fold at folded
  cases kind : operation.kind with
  | constant =>
    rw [kind] at folded
    cases folded
  | add => exact combined .add (by rw [kind]; rfl) (by rw [kind] at folded; exact folded)
  | mul => exact combined .mul (by rw [kind]; rfl) (by rw [kind] at folded; exact folded)
  | and => exact combined .and (by rw [kind]; rfl) (by rw [kind] at folded; exact folded)
  | or => exact combined .or (by rw [kind]; rfl) (by rw [kind] at folded; exact folded)
  | xor => exact combined .xor (by rw [kind]; rfl) (by rw [kind] at folded; exact folded)
  | sub =>
    rw [kind] at folded
    exact constants (by rw [kind]; decide) _ (suits_foldDifference kind verified) folded
  | div =>
    rw [kind] at folded
    refine suits_foldDivisor (fun fallback => ?_) folded
    exact constants (by rw [kind]; decide) _ (suits_foldQuotient kind verified) fallback
  | mod =>
    rw [kind] at folded
    refine suits_foldDivisor (fun fallback => ?_) folded
    exact constants (by rw [kind]; decide) _ (suits_foldRemainder kind verified) fallback
  | andReduce =>
    rw [kind] at folded
    exact constants (by rw [kind]; decide) _
      (suits_foldReduction (.inl kind) verified) folded
  | orReduce =>
    rw [kind] at folded
    exact constants (by rw [kind]; decide) _
      (suits_foldReduction (.inr (.inl kind)) verified) folded
  | xorReduce =>
    rw [kind] at folded
    exact constants (by rw [kind]; decide) _
      (suits_foldReduction (.inr (.inr kind)) verified) folded
  | concat =>
    simp only [kind] at folded
    split at folded
    · rename_i operand operands
      cases folded
      exact suits_single_concat kind verified operands
    · exact constants (by rw [kind]; decide) _ (fun impossible => by cases impossible) folded
  | extract =>
    rw [kind] at folded
    exact constants (by rw [kind]; decide) _ (suits_foldSlice kind typed known verified) folded
  | signExtend =>
    rw [kind] at folded
    exact constants (by rw [kind]; decide) _ (fun impossible => by cases impossible) folded
  | zeroExtend =>
    rw [kind] at folded
    exact constants (by rw [kind]; decide) _ (fun impossible => by cases impossible) folded

/-! ### New operations -/

/-- A new operation has fewer operands than the one it replaces, or its operand is read by the
operand of that one. -/
def Shape.Lighter (shape : Shape) (scope : Scope) (operation : Operation) : Prop :=
  shape.operands.length < operation.operands.length ∨
    ∃ source inner definition, shape.operands = [.existing source] ∧
      inner ∈ operation.operands ∧ scope.definition inner = some definition ∧
        source ∈ definition.operands

variable {shape : Shape}

theorem Operation.CombinedRule.lighter {algebra : Algebra}
    (rule : operation.CombinedRule scope algebra (.fresh shape)) :
    shape.Lighter scope operation := by
  have counted := Operation.length_variables scope operation.operands
  refine .inl ?_
  cases rule with
  | survivors combined neutral several =>
    have some_ : 0 < (operation.operands.filterMap scope.constant?).length := by
      refine List.length_pos_iff.mpr fun empty => ?_
      rw [empty] at combined
      cases combined
    simp only [Operation.rebuilt, Option.map_none, Option.toList_none, List.append_nil,
      List.length_map]
    omega
  | merged combined repeated others =>
    simp only [Operation.rebuilt, Option.map_some, Option.toList_some, List.length_append,
      List.length_map, List.length_singleton]
    omega

theorem foldConstants_fresh {otherwise : FoldOutcome}
    (folded : operation.foldConstants scope otherwise = .folded (.fresh shape)) :
    otherwise = .folded (.fresh shape) := by
  unfold Operation.foldConstants at folded
  split at folded
  · rename_i arguments _
    cases computed : operation.evaluate arguments <;> rw [computed] at folded <;> cases folded
  · exact folded

theorem foldDivisor_fresh {otherwise : FoldOutcome}
    (folded : operation.foldDivisor scope otherwise = .folded (.fresh shape)) :
    otherwise = .folded (.fresh shape) := by
  unfold Operation.foldDivisor at folded
  split at folded
  · cases folded
  · exact folded

theorem foldSlice_lighter (folded : operation.foldSlice scope = .folded (.fresh shape)) :
    shape.Lighter scope operation := by
  unfold Operation.foldSlice at folded
  split at folded
  · rename_i operands
    split at folded
    · cases folded
    · split at folded
      · rename_i defined
        split at folded
        · cases folded
          exact .inr ⟨_, _, _, rfl, operands ▸ List.mem_cons_self, defined, List.mem_cons_self⟩
        · cases folded
      · cases folded
  · cases folded

/-- New operations are proposed for sums, products, bitwise operations and slices only. -/
theorem fold_fresh_cases (folded : operation.fold scope options = .folded (.fresh shape)) :
    (∃ algebra, operation.kind.algebra? = some algebra ∧
      operation.foldCombined scope options algebra = .folded (.fresh shape)) ∨
    operation.kind = .extract ∧ operation.foldSlice scope = .folded (.fresh shape) := by
  unfold Operation.fold at folded
  cases kind : operation.kind <;> rw [kind] at folded
  case constant => cases folded
  case add => exact .inl ⟨_, rfl, folded⟩
  case mul => exact .inl ⟨_, rfl, folded⟩
  case and => exact .inl ⟨_, rfl, folded⟩
  case or => exact .inl ⟨_, rfl, folded⟩
  case xor => exact .inl ⟨_, rfl, folded⟩
  case sub =>
    have difference := foldConstants_fresh folded
    unfold Operation.foldDifference at difference
    split at difference
    · split at difference
      · cases difference
      · split at difference <;> cases difference
    · cases difference
  case div =>
    have quotient := foldConstants_fresh (foldDivisor_fresh folded)
    unfold Operation.foldQuotient at quotient
    split at quotient
    · split at quotient <;> cases quotient
    · cases quotient
  case mod =>
    have remainder := foldConstants_fresh (foldDivisor_fresh folded)
    unfold Operation.foldRemainder at remainder
    split at remainder <;> cases remainder
  case concat =>
    simp only at folded
    split at folded
    · cases folded
    · cases foldConstants_fresh folded
  case extract => exact .inr ⟨rfl, foldConstants_fresh folded⟩
  case signExtend => cases foldConstants_fresh folded
  case zeroExtend => cases foldConstants_fresh folded
  all_goals
    have reduction := foldConstants_fresh folded
    unfold Operation.foldReduction at reduction
    split at reduction
    · split at reduction <;> cases reduction
    · cases reduction

/-- Folding lets new operations shrink or move towards the inputs. -/
theorem fold_lighter (folded : operation.fold scope options = .folded (.fresh shape)) :
    shape.Lighter scope operation := by
  rcases fold_fresh_cases folded with ⟨algebra, _, combined⟩ | ⟨_, sliced⟩
  · exact (Operation.foldCombined_rule combined).lighter
  · exact foldSlice_lighter sliced

/-- Constants are not folded. -/
theorem not_constant_of_fold (folded : operation.fold scope options = .folded replacement) :
    operation.kind ≠ .constant := by
  intro kind
  unfold Operation.fold at folded
  rw [kind] at folded
  cases folded

end BitGraph
