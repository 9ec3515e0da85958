/-
This file proves that what folding builds cannot be folded again. The constants
that are left in a sum, a product or a bitwise operation are at most one, which
neither decides the result nor changes nothing; and a slice of what an operand
slices could only be folded if that operand could have been. What folding finds is
seen from the operands, so this is the same wherever the operation is built.
-/

import BitGraph.Proofs.Graph.Building
import BitGraph.Proofs.Proposal.Declining

namespace BitGraph

variable {before after scope : Scope} {operation : Operation} {options : FoldOptions}
  {algebra : Algebra} {shape : Shape}

/-! ### What is seen from the operands -/

/-- Two scopes know the same of a value. -/
def Scope.AgreesOn (after before : Scope) (value : Value) : Prop :=
  after.typeOf value = before.typeOf value ∧ after.definition value = before.definition value

namespace Scope.AgreesOn

variable {middle : Scope} {value : Value}

theorem constant? (agrees : after.AgreesOn before value) :
    after.constant? value = before.constant? value := by
  rw [Scope.constant?, Scope.constant?, agrees.2]

theorem trans (second : after.AgreesOn middle value) (first : middle.AgreesOn before value) :
    after.AgreesOn before value :=
  ⟨second.1.trans first.1, second.2.trans first.2⟩

end Scope.AgreesOn

section Agree

variable (agree : ∀ value ∈ operation.operands, after.AgreesOn before value)
include agree

theorem divisor?_congr : operation.divisor? after = operation.divisor? before := by
  unfold Operation.divisor?
  cases second : operation.operands[1]? with
  | none => rfl
  | some value => exact (agree value (List.mem_of_getElem? second)).constant?

theorem dividesByConstantZero_congr :
    operation.DividesByConstantZero after ↔ operation.DividesByConstantZero before := by
  rw [Operation.DividesByConstantZero, Operation.DividesByConstantZero, divisor?_congr agree]

theorem foldCombined_congr : operation.foldCombined after options algebra =
    operation.foldCombined before options algebra := by
  have known : operation.operands.filterMap after.constant? =
      operation.operands.filterMap before.constant? :=
    List.filterMap_congr fun value member => (agree value member).constant?
  have others : operation.operands.filter (fun value => (after.constant? value).isNone) =
      operation.operands.filter fun value => (before.constant? value).isNone :=
    List.filter_congr fun value member => by rw [(agree value member).constant?]
  unfold Operation.foldCombined
  split
  · rfl
  · simp only [known, others]

theorem constants?_congr :
    after.constants? operation.operands = before.constants? operation.operands :=
  mapM_congr fun value member => (agree value member).constant?

theorem foldConstants_congr {first second : FoldOutcome} (same : first = second) :
    operation.foldConstants after first = operation.foldConstants before second := by
  rw [Operation.foldConstants, Operation.foldConstants, constants?_congr agree, same]

theorem foldDifference_congr :
    operation.foldDifference after = operation.foldDifference before := by
  unfold Operation.foldDifference
  split
  · rename_i operands
    rw [(agree _ (operands ▸ List.mem_cons_of_mem _ List.mem_cons_self)).constant?]
  · rfl

theorem foldReduction_congr : operation.foldReduction after = operation.foldReduction before := by
  unfold Operation.foldReduction
  split
  · rename_i operands
    rw [(agree _ (operands ▸ List.mem_cons_self)).1]
  · rfl

theorem foldSlice_congr : operation.foldSlice after = operation.foldSlice before := by
  unfold Operation.foldSlice
  split
  · rename_i operands
    have known := agree _ (operands ▸ List.mem_cons_self)
    rw [known.1, known.2]
  · rfl

/-- What folding finds is seen from the operands. -/
theorem fold_congr : operation.fold after options = operation.fold before options := by
  have constants : ∀ {first second : FoldOutcome}, first = second →
      operation.foldConstants after first = operation.foldConstants before second :=
    foldConstants_congr agree
  have divided : ∀ {first second : FoldOutcome}, first = second →
      operation.foldDivisor after first = operation.foldDivisor before second := by
    intro first second same
    rw [Operation.foldDivisor, Operation.foldDivisor, divisor?_congr agree, same]
  have quotient : operation.foldQuotient after = operation.foldQuotient before := by
    rw [Operation.foldQuotient, Operation.foldQuotient, divisor?_congr agree]
  have remainder : operation.foldRemainder after = operation.foldRemainder before := by
    rw [Operation.foldRemainder, Operation.foldRemainder, divisor?_congr agree]
  unfold Operation.fold
  cases operation.kind with
  | constant => rfl
  | add | mul | and | or | xor => exact foldCombined_congr agree
  | sub => exact constants (foldDifference_congr agree)
  | div => exact divided (constants quotient)
  | mod => exact divided (constants remainder)
  | andReduce | orReduce | xorReduce => exact constants (foldReduction_congr agree)
  | concat => simp only [constants rfl]
  | extract => exact constants (foldSlice_congr agree)
  | signExtend | zeroExtend => exact constants rfl

end Agree

/-! ### Sums, products and bitwise operations -/

/-- At most one constant is left in what is rebuilt, and it neither decides the result nor changes
nothing. -/
theorem foldCombined_fresh
    (folded : operation.foldCombined scope options algebra = .folded (.fresh shape)) :
    ∃ constant : Option Bits,
      shape = operation.rebuilt (scope.variables operation.operands) constant ∧
      scope.variables operation.operands ≠ [] ∧
      2 ≤ (scope.variables operation.operands).length + constant.toList.length ∧
      ∀ merged ∈ constant,
        algebra.absorbs merged = false ∧ algebra.identity.holds merged = false := by
  unfold Operation.foldCombined at folded
  split at folded
  · cases folded
  simp only at folded
  split at folded
  · cases folded
  · cases folded
  rename_i merged combined
  change (if (scope.variables operation.operands).isEmpty then _ else _) = _ at folded
  split_ifs at folded with none_ mixed absorbs neutral repeated
  · cases folded
  · cases folded
  · split at folded
    · cases folded
    · rename_i notOne
      cases folded
      have several : 2 ≤ (scope.variables operation.operands).length := by
        match found : scope.variables operation.operands with
        | [] => exact absurd (List.isEmpty_iff.mpr found) none_
        | [value] => exact absurd found (notOne value)
        | _ :: _ :: _ => exact Nat.le_add_left _ _
      exact ⟨none, rfl, fun empty => none_ (List.isEmpty_iff.mpr empty), several, nofun⟩
  · cases folded
    have others : scope.variables operation.operands ≠ [] :=
      fun empty => none_ (List.isEmpty_iff.mpr empty)
    refine ⟨some merged, rfl, others, Nat.succ_le_succ (List.length_pos_iff.mpr others), ?_⟩
    rintro _ ⟨⟩
    exact ⟨Bool.eq_false_of_not_eq_true absorbs, Bool.eq_false_of_not_eq_true neutral⟩

/-- Nothing is found for several operands that vary but for one at most, unless that one decides the
result or changes nothing. -/
theorem foldCombined_unchanged {constant : Option Bits} (several : 2 ≤ operation.operands.length)
    (varies : scope.variables operation.operands ≠ [])
    (constants : operation.operands.filterMap scope.constant? = constant.toList)
    (plain : ∀ merged ∈ constant,
      algebra.absorbs merged = false ∧ algebra.identity.holds merged = false) :
    operation.foldCombined scope options algebra = .unchanged := by
  unfold Operation.foldCombined
  split
  · rename_i single
    rw [single] at several
    exact absurd several (Nat.not_succ_le_self 1)
  · have some_ : (operation.operands.filter fun value => (scope.constant? value).isNone).isEmpty =
        false := List.isEmpty_eq_false_iff.mpr varies
    simp only [constants, some_]
    cases constant with
    | none => rfl
    | some merged =>
      obtain ⟨decides, neutral⟩ := plain merged rfl
      have combined : algebra.combineAll [merged] = .ok (some merged) := rfl
      simp only [Option.toList_some, combined, decides, neutral, Bool.false_eq_true, if_false,
        List.length_singleton, Nat.not_succ_le_self]
      split <;> rfl

/-! ### Slices -/

section Slice

variable {source operand : Value} {lowBit innerLowBit : Nat} {innerType : BitType}
  {strictness : Strictness}

/-- A slice lies inside of what it slices. -/
theorem slice_inside (kind : operation.kind = .extract) (carried : operation.lowBit? = some lowBit)
    (operands : operation.operands = [operand])
    (verified : operation.verify scope strictness = .ok ()) {type : BitType}
    (typed : scope.typeOf operand = some type) : lowBit + operation.type.width ≤ type.width := by
  obtain ⟨types, each, accepts⟩ := (operation.verify_eq_ok_iff scope strictness).mp verified
  have widths := accepts.widths
  simp only [Operation.WidthsFit, kind, Kind.signature, carried, Option.getD_some] at widths
  obtain ⟨other, isType, found⟩ := exists_of_forall₂ each (operands ▸ List.mem_cons_self)
  cases typed.symm.trans found
  exact widths type isType

/-- A slice that is not folded is not one of a constant. -/
theorem constants?_of_unfolded (kind : operation.kind = .extract) (typed : scope.Typed)
    (verified : operation.verify scope strictness = .ok ())
    (unfolded : ∀ replacement, operation.fold scope options ≠ .folded replacement) :
    scope.constants? operation.operands = none := by
  by_contra known
  obtain ⟨arguments, constants⟩ := Option.ne_none_iff_exists'.mp known
  have same : operation.fold scope options = .ofEvaluation (operation.evaluate arguments) := by
    simp only [Operation.fold, kind, Operation.foldConstants, constants]
  cases computed : operation.evaluate arguments with
  | ok bits =>
    rw [computed] at same
    exact unfolded _ same
  | error reason =>
    rw [computed] at same
    obtain ⟨_, divides, _⟩ := fold_declined typed verified same
    rcases divides with divides | divides <;> cases kind.symm.trans divides

theorem foldSlice_fresh (folded : operation.foldSlice scope = .folded (.fresh shape)) :
    ∃ lowBit operand source innerLowBit innerType, operation.lowBit? = some lowBit ∧
      operation.operands = [operand] ∧
      scope.definition operand = some ⟨.extract, [source], .extract innerLowBit, innerType⟩ ∧
      shape = ⟨.extract, [.existing source], .extract (innerLowBit + lowBit), operation.type⟩ := by
  unfold Operation.foldSlice at folded
  split at folded
  · rename_i carried operands
    split at folded
    · cases folded
    · split at folded
      · rename_i defined
        split at folded
        · cases folded
          exact ⟨_, _, _, _, _, carried, operands, defined, rfl⟩
        · cases folded
      · cases folded
  · cases folded

/-- A slice of what an inner slice slices is folded only if the inner one is. -/
theorem foldSlice_of_nested {type : BitType} (narrower : lowBit + type.width ≤ innerType.width)
    (inside : ∀ whole, scope.typeOf source = some whole →
      innerLowBit + innerType.width ≤ whole.width) {replacement : Replacement}
    (folded : (⟨.extract, [source], .extract (innerLowBit + lowBit), type⟩ : Operation).foldSlice
      scope = .folded replacement) :
    ∃ other, (⟨.extract, [source], .extract innerLowBit, innerType⟩ : Operation).foldSlice scope =
      .folded other := by
  simp only [Operation.foldSlice, Operation.lowBit?] at folded ⊢
  by_cases whole : innerLowBit = 0 ∧ scope.typeOf source = some innerType
  · exact ⟨_, if_pos whole⟩
  rw [if_neg whole]
  have larger : ¬(innerLowBit + lowBit = 0 ∧ scope.typeOf source = some type) := by
    rintro ⟨bottom, typed⟩
    have fits := inside type typed
    have same : type = innerType := BitType.eq_of_width (by omega)
    exact whole ⟨by omega, same ▸ typed⟩
  rw [if_neg larger] at folded
  split at folded
  · rename_i deeper deepLowBit deepType defined
    split at folded
    · rename_i declarable
      exact ⟨_, if_pos (by omega)⟩
    · cases folded
  · cases folded

/-- A slice of what an operand slices is not folded if the operand is not. -/
theorem fold_of_nested (typed : scope.Typed) (known : scope.Verified strictness)
    (verified : operation.verify scope strictness = .ok ()) (kind : operation.kind = .extract)
    (carried : operation.lowBit? = some lowBit) (operands : operation.operands = [operand])
    (defined : scope.definition operand =
      some ⟨.extract, [source], .extract innerLowBit, innerType⟩)
    (unfolded : ∀ replacement,
      (⟨.extract, [source], .extract innerLowBit, innerType⟩ : Operation).fold scope options ≠
        .folded replacement) (replacement : Replacement) :
    (⟨.extract, [source], .extract (innerLowBit + lowBit), operation.type⟩ : Operation).fold
      scope options ≠ .folded replacement := by
  have innerVerified := known operand _ defined
  have unknown : scope.constants? [source] = none :=
    constants?_of_unfolded rfl typed innerVerified unfolded
  have sliced : ∀ (low : Nat) (type : BitType),
      (⟨.extract, [source], .extract low, type⟩ : Operation).fold scope options =
        (⟨.extract, [source], .extract low, type⟩ : Operation).foldSlice scope := by
    intro low type
    simp only [Operation.fold, Operation.foldConstants, unknown]
  intro folded
  have narrower := slice_inside kind carried operands verified (typed operand _ defined)
  obtain ⟨other, innerFolded⟩ := foldSlice_of_nested narrower
    (fun whole isWhole => slice_inside rfl rfl rfl innerVerified isWhole)
    ((sliced _ _).symm.trans folded)
  exact unfolded other ((sliced _ _).trans innerFolded)

end Slice

/-! ### All operations -/

/-- What the operands of a shape are in the scope in which it was built. -/
def Operand.Placed (before after : Scope) : Operand → Value → Prop
  | .existing named, value => value = named ∧ after.AgreesOn before value
  | .pending bits, value => after.constant? value = some bits

/-- What is rebuilt reads the variables of the operation, and the merged constant. -/
theorem variables_of_placed {rest values : List Value} {constant : Option Bits}
    (varies : ∀ value ∈ rest, before.constant? value = none)
    (placed : List.Forall₂ (Operand.Placed before after) (operation.rebuilt rest constant).operands
      values) :
    rest ⊆ after.variables values ∧ values.filterMap after.constant? = constant.toList := by
  obtain ⟨front, back, frontPlaced, backPlaced, rfl⟩ := exists_of_forall₂_append placed
  rw [List.forall₂_map_left_iff] at frontPlaced
  have isFront : rest = front := by
    rw [← List.forall₂_eq_eq_eq]
    exact frontPlaced.imp fun _ _ here => here.1.symm
  subst isFront
  have stillVaries : ∀ value ∈ rest, after.constant? value = none := fun value member =>
    ((List.forall₂_same.mp frontPlaced value member).2.constant?).trans (varies value member)
  refine ⟨fun value member => List.mem_filter.mpr ⟨List.mem_append_left _ member, ?_⟩, ?_⟩
  · rw [stillVaries value member]
    rfl
  · rw [List.filterMap_append, List.filterMap_eq_nil_iff.mpr stillVaries, List.nil_append]
    cases constant with
    | none =>
      cases backPlaced
      rfl
    | some bits =>
      obtain ⟨value, _, isConstant, stop, rfl⟩ := List.forall₂_cons_left_iff.mp backPlaced
      cases stop
      rw [List.filterMap_cons_some isConstant]
      rfl

/-- Nothing is found for what is rebuilt. -/
theorem foldCombined_of_proposed
    (combined : operation.foldCombined before options algebra = .folded (.fresh shape))
    {values : List Value}
    (placed : List.Forall₂ (Operand.Placed before after) shape.operands values) :
    (shape.operation values).foldCombined after options algebra = .unchanged := by
  obtain ⟨constant, rfl, varies, several, plain⟩ := foldCombined_fresh combined
  obtain ⟨variables_, constants⟩ :=
    variables_of_placed (fun value member => by simpa using List.of_mem_filter member) placed
  have length : values.length =
      (before.variables operation.operands).length + constant.toList.length := by
    rw [← placed.length_eq, Operation.rebuilt, List.length_append, List.length_map]
    cases constant <;> rfl
  refine foldCombined_unchanged ?_ (fun empty => varies ?_) constants plain
  · exact length.symm ▸ several
  · exact List.subset_nil.mp (empty ▸ variables_)

/-- What folding proposes is not folded once it is built, as long as the operations that were read
are not folded. -/
theorem fold_of_proposed {strictness : Strictness} (typed : before.Typed)
    (known : before.Verified strictness) (verified : operation.verify before strictness = .ok ())
    (unfolded : ∀ value ∈ operation.operands, ∀ definition,
      before.definition value = some definition → ∀ replacement,
        definition.fold before options ≠ .folded replacement)
    (folded : operation.fold before options = .folded (.fresh shape)) {values : List Value}
    (placed : List.Forall₂ (Operand.Placed before after) shape.operands values)
    (replacement : Replacement) :
    (shape.operation values).fold after options ≠ .folded replacement := by
  rcases fold_fresh_cases folded with ⟨algebra, isAlgebra, combined⟩ | ⟨kind, sliced⟩
  · have sameKind : (shape.operation values).kind = operation.kind := by
      obtain ⟨_, rfl, _⟩ := foldCombined_fresh combined
      rfl
    rw [Operation.fold_of_algebra? (sameKind ▸ isAlgebra),
      foldCombined_of_proposed combined placed]
    nofun
  · obtain ⟨lowBit, operand, source, innerLowBit, innerType, carried, operands, defined, rfl⟩ :=
      foldSlice_fresh sliced
    obtain ⟨read, _, ⟨rfl, agrees⟩, stop, rfl⟩ := List.forall₂_cons_left_iff.mp placed
    cases stop
    have nested := fold_of_nested typed known verified kind carried operands defined
      (unfolded operand (operands ▸ List.mem_cons_self) _ defined) replacement
    refine fun refolded => nested ((fold_congr ?_).symm.trans refolded)
    exact fun value here => List.mem_singleton.mp here ▸ agrees

/-- What folding proposes does not divide. -/
theorem not_divides_of_proposed (folded : operation.fold before options = .folded (.fresh shape))
    (values : List Value) : ¬ (shape.operation values).DividesByConstantZero after := by
  rintro ⟨divides, _⟩
  rcases fold_fresh_cases folded with ⟨algebra, isAlgebra, combined⟩ | ⟨_, sliced⟩
  · obtain ⟨_, rfl, _⟩ := foldCombined_fresh combined
    rcases divides with kind | kind <;>
      · rw [show operation.kind = _ from kind] at isAlgebra
        cases isAlgebra
  · obtain ⟨_, _, _, _, _, _, _, _, rfl⟩ := foldSlice_fresh sliced
    rcases divides with kind | kind <;> cases kind

end BitGraph
