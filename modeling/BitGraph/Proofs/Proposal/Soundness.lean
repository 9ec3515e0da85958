/-
This file proves that folding is sound in any scope, whether it belongs to a graph
or not. What is proposed mentions operands only, or what an operand slices; it is
well formed once the constants that it needs are in place; and it denotes what the
operation computes, under every valuation that respects the scope.
-/

import BitGraph.Proofs.Graph.Building
import BitGraph.Proofs.Proposal.Folding

namespace BitGraph

variable {scope : Scope} {operation : Operation} {strictness : Strictness}
  {options : FoldOptions} {replacement : Replacement}

/-! ### Valuations -/

/-- A valuation gives every value a result, and none of them is a failure. -/
theorem Valuation.Respects.outcomes {valuation : Valuation} (respects : valuation.Respects scope) :
    Outcomes.Respects (fun value => .ok (valuation value)) scope where
  admits value type typed := BitType.admits_ok (respects.width value type typed)
  constant value bits constant := congrArg Except.ok (respects.constant value bits constant)
  slice value definition defined kind := by
    rw [← respects.slice value definition defined kind, ← Operation.combine_map_ok, List.map_map]
    rfl

/-- Without failures, the result of a proposal is what it denotes. -/
theorem Replacement.outcome_valuation (replacement : Replacement) (valuation : Valuation) :
    replacement.outcome (fun value => .ok (valuation value)) = replacement.denote valuation := by
  cases replacement with
  | existing value => rfl
  | constant bits => rfl
  | fresh shape =>
    have operands : shape.operands.map (Operand.outcome fun value => .ok (valuation value)) =
        (shape.operands.map (Operand.denote valuation)).map .ok := by
      rw [List.map_map]
      refine List.map_congr_left fun operand _ => ?_
      cases operand <;> rfl
    rw [Replacement.outcome, Shape.outcome, operands, Operation.combine_map_ok]
    rfl

/-! ### What is mentioned -/

/-- Where the values come from that a proposal mentions: they are operands, or the only one is
what an operand slices. -/
inductive Replacement.DrawnFrom (scope : Scope) (operation : Operation) : Replacement → Prop where
  | operand {value : Value} (member : value ∈ operation.operands) :
    DrawnFrom scope operation (.existing value)
  | constant (bits : Bits) : DrawnFrom scope operation (.constant bits)
  | operands {shape : Shape}
    (members : ∀ value ∈ (Replacement.fresh shape).values, value ∈ operation.operands) :
    DrawnFrom scope operation (.fresh shape)
  | source {shape : Shape} {inner source : Value} {slice : Operation}
    (member : inner ∈ operation.operands) (defined : scope.definition inner = some slice)
    (kind : slice.kind = .extract) (operands : slice.operands = [source])
    (only : (Replacement.fresh shape).values = [source]) : DrawnFrom scope operation (.fresh shape)

theorem values_rebuilt (operation : Operation) (rest : List Value) (constant : Option Bits) :
    (Replacement.fresh (operation.rebuilt rest constant)).values = rest := by
  simp only [Replacement.values, Operation.rebuilt]
  rw [List.filterMap_append, List.filterMap_map]
  cases constant <;> simp

theorem Operation.CombinedRule.drawnFrom {algebra : Algebra}
    (rule : operation.CombinedRule scope algebra replacement) :
    replacement.DrawnFrom scope operation := by
  have variable_ : ∀ value ∈ scope.variables operation.operands, value ∈ operation.operands :=
    fun value member => List.mem_of_mem_filter member
  cases rule with
  | single only => exact .operand (only ▸ List.mem_singleton_self _)
  | decided _ _ => exact .constant _
  | survivor _ _ only => exact .operand (variable_ _ (only ▸ List.mem_singleton_self _))
  | survivors _ _ _ =>
    refine .operands fun value member => variable_ value ?_
    rwa [values_rebuilt] at member
  | merged _ _ _ =>
    refine .operands fun value member => variable_ value ?_
    rwa [values_rebuilt] at member

theorem foldConstants_drawnFrom {otherwise : FoldOutcome}
    (fallback : otherwise = .folded replacement → replacement.DrawnFrom scope operation)
    (folded : operation.foldConstants scope otherwise = .folded replacement) :
    replacement.DrawnFrom scope operation := by
  unfold Operation.foldConstants at folded
  split at folded
  · rename_i arguments _
    cases computed : operation.evaluate arguments <;> rw [computed] at folded <;> cases folded
    exact .constant _
  · exact fallback folded

theorem foldDivisor_drawnFrom {otherwise : FoldOutcome}
    (fallback : otherwise = .folded replacement → replacement.DrawnFrom scope operation)
    (folded : operation.foldDivisor scope otherwise = .folded replacement) :
    replacement.DrawnFrom scope operation := by
  unfold Operation.foldDivisor at folded
  split at folded
  · cases folded
  · exact fallback folded

theorem foldDifference_drawnFrom (folded : operation.foldDifference scope = .folded replacement) :
    replacement.DrawnFrom scope operation := by
  unfold Operation.foldDifference at folded
  split at folded
  · rename_i operands
    split_ifs at folded <;> cases folded
    · exact .operand (operands ▸ List.mem_cons_self)
    · exact .constant _
  · cases folded

theorem foldQuotient_drawnFrom (folded : operation.foldQuotient scope = .folded replacement) :
    replacement.DrawnFrom scope operation := by
  unfold Operation.foldQuotient at folded
  split at folded
  · rename_i operands
    split_ifs at folded
    cases folded
    exact .operand (operands ▸ List.mem_cons_self)
  · cases folded

theorem foldRemainder_drawnFrom (folded : operation.foldRemainder scope = .folded replacement) :
    replacement.DrawnFrom scope operation := by
  unfold Operation.foldRemainder at folded
  split_ifs at folded
  cases folded
  exact .constant _

theorem foldReduction_drawnFrom (folded : operation.foldReduction scope = .folded replacement) :
    replacement.DrawnFrom scope operation := by
  unfold Operation.foldReduction at folded
  split at folded
  · rename_i operands
    split_ifs at folded
    cases folded
    exact .operand (operands ▸ List.mem_cons_self)
  · cases folded

theorem foldSlice_drawnFrom (folded : operation.foldSlice scope = .folded replacement) :
    replacement.DrawnFrom scope operation := by
  unfold Operation.foldSlice at folded
  split at folded
  · rename_i operands
    split at folded
    · cases folded
      exact .operand (operands ▸ List.mem_cons_self)
    · split at folded
      · rename_i defined
        split at folded
        · cases folded
          exact .source (operands ▸ List.mem_cons_self) defined rfl rfl rfl
        · cases folded
      · cases folded
  · cases folded

/-- Folding mentions operands only, or what an operand slices. -/
theorem fold_drawnFrom (folded : operation.fold scope options = .folded replacement) :
    replacement.DrawnFrom scope operation := by
  have nothing : FoldOutcome.unchanged = .folded replacement →
      replacement.DrawnFrom scope operation := nofun
  unfold Operation.fold at folded
  cases kind : operation.kind <;> rw [kind] at folded
  case constant => exact nothing folded
  case add => exact (Operation.foldCombined_rule folded).drawnFrom
  case mul => exact (Operation.foldCombined_rule folded).drawnFrom
  case and => exact (Operation.foldCombined_rule folded).drawnFrom
  case or => exact (Operation.foldCombined_rule folded).drawnFrom
  case xor => exact (Operation.foldCombined_rule folded).drawnFrom
  case sub => exact foldConstants_drawnFrom foldDifference_drawnFrom folded
  case div =>
    exact foldDivisor_drawnFrom (foldConstants_drawnFrom foldQuotient_drawnFrom) folded
  case mod =>
    exact foldDivisor_drawnFrom (foldConstants_drawnFrom foldRemainder_drawnFrom) folded
  case andReduce => exact foldConstants_drawnFrom foldReduction_drawnFrom folded
  case orReduce => exact foldConstants_drawnFrom foldReduction_drawnFrom folded
  case xorReduce => exact foldConstants_drawnFrom foldReduction_drawnFrom folded
  case concat =>
    simp only at folded
    split at folded
    · rename_i operands
      cases folded
      exact .operand (operands ▸ List.mem_cons_self)
    · exact foldConstants_drawnFrom nothing folded
  case extract => exact foldConstants_drawnFrom foldSlice_drawnFrom folded
  case signExtend => exact foldConstants_drawnFrom nothing folded
  case zeroExtend => exact foldConstants_drawnFrom nothing folded

/-! ### Shapes that are put in place -/

/-- The value that an operand has become: a value that exists is kept, with the type that it had,
and a pending constant is a constant now. -/
inductive Operand.Becomes (before after : Scope) : Operand → Value → Prop where
  | existing {value : Value} (kept : after.typeOf value = before.typeOf value) :
    Becomes before after (.existing value) value
  | pending {bits : Bits} {value : Value} (typed : after.typeOf value = some (.ofBits bits))
    (constant : after.constant? value = some bits) : Becomes before after (.pending bits) value

/-- The operation that a shape asks for, over the values that its operands have become. -/
def Shape.over (shape : Shape) (values : List Value) : Operation :=
  ⟨shape.kind, values, shape.attr, shape.type⟩

theorem Operand.Becomes.typeOf {after : Scope} {operand : Operand} {value : Value}
    {type : BitType} (becomes : operand.Becomes scope after value)
    (typed : operand.type? scope = some type) : after.typeOf value = some type := by
  cases becomes with
  | existing kept => exact kept.trans typed
  | pending known _ => exact known.trans typed

/-- A shape whose operands fit together is well formed once it is in place. -/
theorem Shape.Fits.verify {shape : Shape} (fits : shape.Fits scope)
    (lenient : strictness.minArity ≤ 2) {after : Scope} {values : List Value}
    (becomes : List.Forall₂ (Operand.Becomes scope after) shape.operands values) :
    (shape.over values).verify after strictness = .ok () := by
  obtain ⟨types, typed, accepts⟩ := fits
  obtain ⟨attr, arity, widths⟩ := accepts strictness lenient
  rw [Operation.verify_eq_ok_iff]
  refine ⟨types, ?_, attr, arity, widths⟩
  exact forall₂_of_common (fun _ _ _ here known => here.typeOf known) becomes typed

/-- The scope that knows of one constant more. -/
def Scope.withConstant (scope : Scope) (value : Value) (bits : Bits) : Scope where
  typeOf := Function.update scope.typeOf value (some (.ofBits bits))
  definition := Function.update scope.definition value (some bits.operation)

theorem Scope.constant?_withConstant (scope : Scope) (value : Value) (bits : Bits) :
    (scope.withConstant value bits).constant? value = some bits := by
  have defined : (scope.withConstant value bits).definition value = some bits.operation :=
    Function.update_self _ _ _
  rw [Scope.constant?, defined]
  exact bits.constant?_operation

theorem Operand.Becomes.withConstant {after : Scope} {operand : Operand} {value : Value}
    (becomes : operand.Becomes scope after value) {other : Value} (apart : value ≠ other)
    (bits : Bits) : operand.Becomes scope (after.withConstant other bits) value := by
  have sameType : (after.withConstant other bits).typeOf value = after.typeOf value :=
    Function.update_of_ne apart _ _
  have sameDefinition : (after.withConstant other bits).definition value = after.definition value :=
    Function.update_of_ne apart _ _
  have sameConstant : (after.withConstant other bits).constant? value = after.constant? value := by
    rw [Scope.constant?, Scope.constant?, sameDefinition]
  cases becomes with
  | existing kept => exact .existing (sameType.trans kept)
  | pending typed constant =>
    exact .pending (sameType.trans typed) (sameConstant.trans constant)

/-- No finite number of values are all. -/
theorem exists_other_value (values : List Value) : ∃ value, value ∉ values := by
  obtain ⟨id, unused⟩ := Infinite.exists_notMem_finset (values.filterMap Value.producer?).toFinset
  refine ⟨.result id, fun member => unused ?_⟩
  exact List.mem_toFinset.mpr (List.mem_filterMap.mpr ⟨_, member, rfl⟩)

/-- Operands can always be put in place, while values keep their types. -/
theorem exists_becomes (scope : Scope) (operands : List Operand) (kept : List Value) :
    ∃ after values, List.Forall₂ (Operand.Becomes scope after) operands values ∧
      ∀ value ∈ kept, after.typeOf value = scope.typeOf value := by
  induction operands generalizing kept with
  | nil => exact ⟨scope, [], .nil, fun _ _ => rfl⟩
  | cons operand rest inductionHypothesis =>
    cases operand with
    | existing value =>
      obtain ⟨after, values, becomes, same⟩ := inductionHypothesis (value :: kept)
      exact ⟨after, value :: values, .cons (.existing (same value List.mem_cons_self)) becomes,
        fun other member => same other (List.mem_cons_of_mem _ member)⟩
    | pending bits =>
      obtain ⟨after, values, becomes, same⟩ := inductionHypothesis kept
      obtain ⟨value, unused⟩ := exists_other_value (values ++ kept)
      rw [List.mem_append, not_or] at unused
      refine ⟨after.withConstant value bits, value :: values, .cons ?_ ?_, fun other member => ?_⟩
      · exact .pending (Function.update_self _ _ _) (after.constant?_withConstant value bits)
      · refine List.forall₂_iff_get.mpr ⟨becomes.length_eq, fun index here there => ?_⟩
        refine (becomes.get here there).withConstant ?_ bits
        exact fun taken => unused.1 (taken ▸ List.get_mem _ _)
      · refine (Function.update_of_ne ?_ _ _).trans (same other member)
        exact fun taken => unused.2 (taken ▸ member)

/-! ### Soundness -/

/-- What folding proposes for a well-formed operation has the type of the operation. It mentions
only operands, or what an operand slices. A new operation can be put in place, and wherever it is,
it is well formed. Under every valuation that respects the scope, the proposal denotes what the
operation computes. -/
theorem fold_sound (typed : scope.Typed) {others : Strictness} (known : scope.Verified others)
    (verified : operation.verify scope strictness = .ok ()) (lenient : strictness.minArity ≤ 2)
    (folded : operation.fold scope options = .folded replacement) :
    replacement.type? scope = some operation.type ∧
    (∀ value ∈ replacement.values, value ∈ operation.operands ∨
      ∃ inner ∈ operation.operands, ∃ slice, scope.definition inner = some slice ∧
        slice.kind = .extract ∧ slice.operands = [value]) ∧
    (∀ shape, replacement = .fresh shape →
      (∃ after values, List.Forall₂ (Operand.Becomes scope after) shape.operands values) ∧
      ∀ after values, List.Forall₂ (Operand.Becomes scope after) shape.operands values →
        (shape.over values).verify after strictness = .ok ()) ∧
    ∀ valuation : Valuation, valuation.Respects scope → ∀ bits,
      operation.evaluate (operation.operands.map valuation) = .ok bits →
        replacement.denote valuation = .ok bits := by
  have suits := fold_suits typed known verified folded
  refine ⟨suits.type, fun value mentioned => ?_, fun shape fresh => ⟨?_, fun after values => ?_⟩,
    fun valuation respects bits computed => ?_⟩
  · cases fold_drawnFrom folded with
    | operand member => exact .inl (List.mem_singleton.mp mentioned ▸ member)
    | constant _ => cases mentioned
    | operands members => exact .inl (members value mentioned)
    | source member defined kind operands only =>
      rw [only] at mentioned
      cases List.mem_singleton.mp mentioned
      exact .inr ⟨_, member, _, defined, kind, operands⟩
  · obtain ⟨after, values, becomes, _⟩ := exists_becomes scope shape.operands []
    exact ⟨after, values, becomes⟩
  · exact (suits.fits shape fresh).verify lenient
  · rw [← replacement.outcome_valuation valuation]
    refine suits.outcome _ respects.outcomes bits ?_
    rw [← computed, ← Operation.combine_map_ok, List.map_map]
    rfl

/-- The scope in which each input is of a type, and each result is a slice of the input of its
number. -/
def Scope.slices (whole part : BitType) (lowBit : Nat) : Scope where
  typeOf
    | .input _ => some whole
    | .result _ => some part
  definition
    | .input _ => none
    | .result number => some ⟨.extract, [.input number], .extract lowBit, part⟩

/-- Three bits of five bits of a byte are three bits of the byte. -/
theorem fold_sound_slices :
    let scope := Scope.slices ⟨8, by decide⟩ ⟨5, by decide⟩ 2
    let operation : Operation := ⟨.extract, [.result 0], .extract 1, ⟨3, by decide⟩⟩
    let shape : Shape := ⟨.extract, [.existing (.input 0)], .extract 3, ⟨3, by decide⟩⟩
    let valuation : Valuation := fun value => match value with
      | .input _ => ⟨8, by decide, 0b10110100⟩
      | .result _ => ⟨5, by decide, 0b01101⟩
    scope.Typed ∧ scope.Verified {} ∧ operation.verify scope {} = .ok () ∧
      operation.fold scope {} = .folded (.fresh shape) ∧ valuation.Respects scope ∧
      (Replacement.fresh shape).denote valuation = .ok ⟨3, by decide, 0b110⟩ := by
  intro scope operation shape valuation
  have typed : scope.Typed := by
    intro value definition defined
    cases value with
    | input index => cases defined
    | result number =>
      cases defined
      rfl
  have known : scope.Verified {} := by
    intro value definition defined
    cases value with
    | input index => cases defined
    | result number =>
      cases defined
      rfl
  have verified : operation.verify scope {} = .ok () := rfl
  have folded : operation.fold scope {} = .folded (.fresh shape) := by decide
  have respects : valuation.Respects scope := by
    refine ⟨fun value type found => ?_, fun value bits constant => ?_,
      fun value definition defined _ => ?_⟩
    · cases value <;> cases found <;> rfl
    · cases value <;> cases constant
    · cases value with
      | input index => cases defined
      | result number =>
        cases defined
        change (Bits.extract ⟨8, by decide, 0b10110100⟩ 2 5).mapError GraphError.bits =
          .ok ⟨5, by decide, 0b01101⟩
        decide
  exact ⟨typed, known, verified, folded, respects,
    (fold_sound typed known verified (by decide) folded).2.2.2 valuation respects _ (by decide)⟩

end BitGraph
