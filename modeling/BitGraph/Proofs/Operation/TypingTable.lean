/-
This file proves that the judgement of operations decides the typing table. The
table is stated one kind of operation after the other, and in natural numbers; the
judgement reads signatures, and looks at one thing after the other. The order in
which it looks matters to a machine: an operand is only looked up where the number
of operands was found to be right, and no sum of widths that it forms leaves a word
of 64 bits, so a judgement in such words is the same one.
-/

import BitGraph.Proofs.Operation.Evaluation

namespace BitGraph

/-! ### The table -/

namespace Operation

/-- The typing table. -/
inductive WellTyped (scope : Scope) (strictness : Strictness) : Operation → Prop where
  | constant {magnitude : Nat} {type : BitType} (fits : magnitude < 2 ^ type.width) :
    WellTyped scope strictness ⟨.constant, [], .constant magnitude, type⟩
  | variadic {kind : Kind} {operands : List Value} {type : BitType}
    (kinds : kind ∈ [.add, .mul, .and, .or, .xor])
    (enough : strictness.minArity ≤ operands.length)
    (same : ∀ value ∈ operands, scope.typeOf value = some type) :
    WellTyped scope strictness ⟨kind, operands, .none, type⟩
  | binary {kind : Kind} {left right : Value} {type : BitType} (kinds : kind ∈ [.sub, .div, .mod])
    (sameLeft : scope.typeOf left = some type) (sameRight : scope.typeOf right = some type) :
    WellTyped scope strictness ⟨kind, [left, right], .none, type⟩
  | reduction {kind : Kind} {operand : Value} {source type : BitType}
    (kinds : kind ∈ [.andReduce, .orReduce, .xorReduce])
    (typed : scope.typeOf operand = some source) (single : type.width = 1) :
    WellTyped scope strictness ⟨kind, [operand], .none, type⟩
  | concat {operands : List Value} {sources : List BitType} {type : BitType}
    (nonempty : operands ≠ [])
    (typed : List.Forall₂ (fun value source => scope.typeOf value = some source) operands sources)
    (sum : (sources.map BitType.width).sum = type.width) :
    WellTyped scope strictness ⟨.concat, operands, .none, type⟩
  | extract {operand : Value} {lowBit : Nat} {source type : BitType}
    (typed : scope.typeOf operand = some source) (inside : lowBit + type.width ≤ source.width) :
    WellTyped scope strictness ⟨.extract, [operand], .extract lowBit, type⟩
  | extension {kind : Kind} {operand : Value} {source type : BitType}
    (kinds : kind ∈ [.signExtend, .zeroExtend]) (typed : scope.typeOf operand = some source)
    (wider : source.width < type.width) :
    WellTyped scope strictness ⟨kind, [operand], .none, type⟩

end Operation

/-! ### Accepted operations are in the table -/

namespace Attribute

theorem hasShape_none_iff (attr : Attribute) : attr.hasShape .none = true ↔ attr = .none := by
  cases attr <;> simp [hasShape]

theorem hasShape_constant_iff (attr : Attribute) :
    attr.hasShape .constant = true ↔ ∃ magnitude, attr = .constant magnitude := by
  cases attr <;> simp [hasShape]

theorem hasShape_extract_iff (attr : Attribute) :
    attr.hasShape .extract = true ↔ ∃ lowBit, attr = .extract lowBit := by
  cases attr <;> simp [hasShape]

end Attribute

namespace Operation

section Accepted

variable {scope : Scope} {strictness : Strictness} {kind : Kind} {operands : List Value}
  {attr : Attribute} {type : BitType} {types : List BitType}

/-- An operation that takes operands of the types that its operands have is in the table. -/
theorem Accepts.wellTyped (accepts : Accepts ⟨kind, operands, attr, type⟩ strictness types)
    (typed : List.Forall₂ (fun value type => scope.typeOf value = some type) operands types) :
    WellTyped scope strictness ⟨kind, operands, attr, type⟩ := by
  obtain ⟨shape, arity, widths⟩ := accepts
  cases kind with
  | constant =>
    obtain ⟨magnitude, rfl⟩ := attr.hasShape_constant_iff.mp shape
    obtain rfl : types = [] := List.length_eq_zero_iff.mp (beq_iff_eq.mp arity)
    obtain rfl := List.forall₂_nil_right_iff.mp typed
    refine .constant ?_
    rw [← Nat.one_shiftLeft, ← Bits.fits_iff]
    exact widths magnitude rfl
  | add | mul | and | or | xor =>
    obtain rfl := attr.hasShape_none_iff.mp shape
    refine .variadic (by decide) (typed.length_eq ▸ of_decide_eq_true arity) fun value member => ?_
    obtain ⟨source, isSource, known⟩ := exists_of_forall₂ typed member
    rw [known, widths source isSource]
  | sub | div | mod =>
    obtain rfl := attr.hasShape_none_iff.mp shape
    obtain ⟨left, right, first, second, rfl, rfl, typedLeft, typedRight⟩ :=
      exists_of_forall₂_two typed (beq_iff_eq.mp arity)
    rw [widths first List.mem_cons_self] at typedLeft
    rw [widths second (List.mem_cons_of_mem _ List.mem_cons_self)] at typedRight
    exact .binary (by decide) typedLeft typedRight
  | andReduce | orReduce | xorReduce =>
    obtain rfl := attr.hasShape_none_iff.mp shape
    obtain ⟨operand, source, rfl, rfl, known⟩ := exists_of_forall₂_one typed (beq_iff_eq.mp arity)
    exact .reduction (by decide) known widths
  | concat =>
    obtain rfl := attr.hasShape_none_iff.mp shape
    have some_ : 1 ≤ types.length := of_decide_eq_true arity
    refine .concat ?_ typed ((BitType.totalWidth_eq_sum types).symm.trans widths)
    exact List.ne_nil_of_length_pos (typed.length_eq ▸ some_)
  | extract =>
    obtain ⟨lowBit, rfl⟩ := attr.hasShape_extract_iff.mp shape
    obtain ⟨operand, source, rfl, rfl, known⟩ := exists_of_forall₂_one typed (beq_iff_eq.mp arity)
    exact .extract known (widths source List.mem_cons_self)
  | signExtend | zeroExtend =>
    obtain rfl := attr.hasShape_none_iff.mp shape
    obtain ⟨operand, source, rfl, rfl, known⟩ := exists_of_forall₂_one typed (beq_iff_eq.mp arity)
    exact .extension (by decide) known (widths source List.mem_cons_self)

end Accepted

/-! ### Operations in the table are accepted -/

variable {operation : Operation} {scope : Scope} {strictness : Strictness}

theorem WellTyped.accepts (wellTyped : operation.WellTyped scope strictness) :
    ∃ types, List.Forall₂ (fun value type => scope.typeOf value = some type)
      operation.operands types ∧ operation.Accepts strictness types := by
  cases wellTyped with
  | @constant magnitude type fits =>
    refine ⟨[], .nil, rfl, rfl, ?_⟩
    rintro _ ⟨⟩
    rwa [Bits.fits_iff, Nat.one_shiftLeft]
  | @variadic kind operands type kinds enough same =>
    have signature : kind.signature = ⟨.variadic, .sameAsOperands, .none⟩ := by
      revert kinds
      cases kind <;> decide
    refine ⟨operands.map fun _ => type, ?_, ?_⟩
    · exact List.forall₂_map_right_iff.mpr (List.forall₂_same.mpr same)
    · constructor <;> simp [signature, Attribute.hasShape, Kind.arity, Signature.arity,
        Arity.accepts, WidthsFit, enough]
  | @binary kind left right type kinds sameLeft sameRight =>
    have signature : kind.signature = ⟨.binary, .sameAsOperands, .none⟩ := by
      revert kinds
      cases kind <;> decide
    refine ⟨[type, type], .cons sameLeft (.cons sameRight .nil), ?_⟩
    constructor <;> simp [signature, Attribute.hasShape, Kind.arity, Signature.arity,
      Arity.accepts, WidthsFit]
  | @reduction kind operand source type kinds typed single =>
    have signature : kind.signature = ⟨.unary, .singleBit, .none⟩ := by
      revert kinds
      cases kind <;> decide
    refine ⟨[source], .cons typed .nil, ?_⟩
    constructor <;> simp [signature, Attribute.hasShape, Kind.arity, Signature.arity,
      Arity.accepts, WidthsFit, single]
  | @concat operands sources type nonempty typed sum =>
    refine ⟨sources, typed, rfl, ?_, (BitType.totalWidth_eq_sum sources).trans sum⟩
    have some_ : 1 ≤ sources.length := typed.length_eq ▸ List.length_pos_iff.mpr nonempty
    exact decide_eq_true some_
  | @extract operand lowBit source type typed inside =>
    refine ⟨[source], .cons typed .nil, rfl, rfl, fun other member => ?_⟩
    rw [List.mem_singleton.mp member]
    exact inside
  | @extension kind operand source type kinds typed wider =>
    have signature : kind.signature = ⟨.unary, .declaredWider, .none⟩ := by
      revert kinds
      cases kind <;> decide
    refine ⟨[source], .cons typed .nil, ?_⟩
    constructor <;> simp [signature, Attribute.hasShape, Kind.arity, Signature.arity,
      Arity.accepts, WidthsFit, wider]

/-- An operation is judged to be well formed exactly if it is in the typing table. -/
theorem verify_eq_ok_iff_wellTyped (operation : Operation) (scope : Scope)
    (strictness : Strictness) :
    operation.verify scope strictness = .ok () ↔ operation.WellTyped scope strictness := by
  rw [verify_eq_ok_iff]
  exact ⟨fun ⟨_, typed, accepts⟩ => accepts.wellTyped typed, WellTyped.accepts⟩

end Operation

/-! ### Judging in words -/

/-- A number, if it takes at most 64 bits. -/
def longWord? (number : Nat) : Option Nat :=
  if number < 2 ^ 64 then some number else none

/-- The width can be declared. -/
def BitType.Declarable (type : BitType) : Prop :=
  type.width ≤ largestWidth

instance (type : BitType) : Decidable type.Declarable :=
  inferInstanceAs (Decidable (type.width ≤ largestWidth))

/-- All values have types that can be declared. -/
def Scope.Declarable (scope : Scope) : Prop :=
  ∀ value type, scope.typeOf value = some type → type.Declarable

/-- The scope of inputs of these types. -/
def Scope.ofInputs (types : List BitType) : Scope where
  typeOf
    | .input index => types[index]?
    | .result _ => none
  definition _ := none

theorem Scope.declarable_ofInputs {types : List BitType}
    (declarable : ∀ type ∈ types, type.Declarable) : (ofInputs types).Declarable := by
  intro value type known
  cases value with
  | input index => exact declarable type (List.mem_of_getElem? known)
  | result id => cases known

/-- The widths of a list of types, added up from the left in words of 64 bits. -/
def BitType.totalInWords (types : List BitType) : Option Nat :=
  types.foldlM (fun total type => longWord? (total + type.width)) 0

namespace Operation

/-- Judge the result type in words of 64 bits. Nothing comes of it if a sum leaves a word, or if
an operand is looked up that is not there. -/
def checkWidthsInWords (operation : Operation) (operands : List BitType) :
    Option (Except GraphError Unit) :=
  let kind := operation.kind
  let width := operation.type.width
  match kind.signature.result with
  | .declared | .sameAsOperands | .singleBit => some (operation.checkWidths operands)
  | .sumOfOperands =>
    (BitType.totalInWords operands).map fun total =>
      if total = width then .ok ()
      else if total ≤ largestWidth then .error (.widthMismatch kind total width)
      else .error (.resultTooWide kind)
  | .declaredNarrowerOrEqual =>
    let lowBit := operation.lowBit?.getD 0
    operands[0]?.bind fun operand => (longWord? (lowBit + width)).map fun top =>
      if operand.width < top then .error (.extractOutOfRange lowBit width operand.width) else .ok ()
  | .declaredWider =>
    operands[0]?.map fun operand =>
      if width ≤ operand.width then .error (.extensionNotWider kind operand.width width) else .ok ()

/-- Judge an operation in a scope, in words of 64 bits. -/
def verifyInWords (operation : Operation) (scope : Scope) (strictness : Strictness) :
    Option (Except GraphError Unit) :=
  let kind := operation.kind
  if operation.attr.hasShape kind.signature.attr then
    if (kind.arity strictness).accepts operation.operands.length then
      match scope.types operation.operands with
      | .ok types => operation.checkWidthsInWords types
      | .error reason => some (.error reason)
    else
      some (.error (.arity kind (kind.arity strictness) operation.operands.length))
  else
    some (.error (.wrongAttribute kind))

/-- Everything that an operation mentions, and the number of its operands, takes at most 32 bits. -/
structure FitsWords (operation : Operation) (scope : Scope) : Prop where
  operands : operation.operands.length < Numeral.wordBound
  lowBit : ∀ lowBit, operation.attr = .extract lowBit → lowBit < Numeral.wordBound
  type : operation.type.Declarable
  scope : scope.Declarable

end Operation

theorem longWord?_of_lt {number : Nat} (small : number < 2 ^ 64) :
    longWord? number = some number :=
  if_pos small

theorem BitType.totalWidth_le {types : List BitType}
    (declarable : ∀ type ∈ types, type.Declarable) :
    totalWidth types ≤ types.length * largestWidth := by
  induction types with
  | nil => exact Nat.zero_le _
  | cons type rest inductionHypothesis =>
    obtain ⟨here, others⟩ := List.forall_mem_cons.mp declarable
    have later := inductionHypothesis others
    rw [totalWidth, List.length_cons, Nat.succ_mul, Nat.add_comm]
    exact Nat.add_le_add later here

theorem BitType.foldlM_longWord? {types : List BitType} {start : Nat}
    (small : start + totalWidth types < 2 ^ 64) :
    types.foldlM (fun total type => longWord? (total + type.width)) start =
      some (start + totalWidth types) := by
  induction types generalizing start with
  | nil => rfl
  | cons type rest inductionHypothesis =>
    rw [totalWidth, ← Nat.add_assoc] at small ⊢
    have first := longWord?_of_lt (Nat.lt_of_le_of_lt (Nat.le_add_right _ _) small)
    rw [List.foldlM_cons, first]
    exact inductionHypothesis small

/-- Fewer than 2^32 declared widths never leave a word of 64 bits while they are added up. -/
theorem BitType.totalInWords_eq {types : List BitType}
    (declarable : ∀ type ∈ types, type.Declarable) (few : types.length < Numeral.wordBound) :
    totalInWords types = some (totalWidth types) := by
  have bound : totalWidth types ≤ largestWidth * largestWidth :=
    (totalWidth_le declarable).trans (Nat.mul_le_mul_right _ (Nat.le_sub_one_of_lt few))
  have small : 0 + totalWidth types < 2 ^ 64 := by
    rw [Nat.zero_add]
    exact Nat.lt_of_le_of_lt bound (by decide)
  rw [totalInWords, foldlM_longWord? small, Nat.zero_add]

namespace Operation

variable {operation : Operation} {scope : Scope} {strictness : Strictness} {types : List BitType}

theorem FitsWords.lowBit_lt (fits : operation.FitsWords scope) :
    operation.lowBit?.getD 0 < Numeral.wordBound := by
  unfold lowBit?
  cases attr : operation.attr with
  | none | constant magnitude => exact (by decide : 0 < Numeral.wordBound)
  | extract lowBit => exact fits.lowBit lowBit attr

theorem checkWidthsInWords_eq (fits : operation.FitsWords scope)
    (typed : List.Forall₂ (fun value type => scope.typeOf value = some type)
      operation.operands types)
    (arity : (operation.kind.arity strictness).accepts types.length = true) :
    operation.checkWidthsInWords types = some (operation.checkWidths types) := by
  have one : operation.kind.signature.operands = .unary → ∃ source, types = [source] := by
    intro unary
    rw [Kind.arity, Signature.arity, unary] at arity
    exact List.length_eq_one_iff.mp (beq_iff_eq.mp arity)
  cases result : operation.kind.signature.result with
  | declared | sameAsOperands | singleBit => simp only [checkWidthsInWords, result]
  | sumOfOperands =>
    have declarable : ∀ type ∈ types, type.Declarable := fun type member => by
      obtain ⟨value, _, known⟩ := exists_of_forall₂ typed.flip member
      exact fits.scope value type known
    have total := BitType.totalInWords_eq declarable (typed.length_eq ▸ fits.operands)
    simp only [checkWidthsInWords, checkWidths, result, total, Option.map_some]
  | declaredNarrowerOrEqual =>
    obtain ⟨source, rfl⟩ := one (by revert result; cases operation.kind <;> decide)
    have small : operation.lowBit?.getD 0 + operation.type.width < 2 ^ 64 :=
      Nat.lt_of_lt_of_le (Nat.add_lt_add_of_lt_of_le fits.lowBit_lt fits.type) (by decide)
    simp only [checkWidthsInWords, checkWidths, result, longWord?_of_lt small, Option.map_some,
      List.getElem?_cons_zero, Option.bind_some, List.find?_singleton, decide_eq_true_eq]
    split <;> rfl
  | declaredWider =>
    obtain ⟨source, rfl⟩ := one (by revert result; cases operation.kind <;> decide)
    simp only [checkWidthsInWords, checkWidths, result, Option.map_some,
      List.getElem?_cons_zero, List.find?_singleton, decide_eq_true_eq]
    split <;> rfl

/-- Judging in words always comes to a judgement, and to the same one. -/
theorem verifyInWords_eq (fits : operation.FitsWords scope) (strictness : Strictness) :
    operation.verifyInWords scope strictness = some (operation.verify scope strictness) := by
  unfold verifyInWords verify
  by_cases shape : operation.attr.hasShape operation.kind.signature.attr = true
  · by_cases arity : (operation.kind.arity strictness).accepts operation.operands.length = true
    · simp only [shape, arity, if_true]
      cases found : scope.types operation.operands with
      | error reason => rfl
      | ok types =>
        have typed := (scope.types_eq_ok_iff _ _).mp found
        exact checkWidthsInWords_eq fits typed (typed.length_eq ▸ arity)
    · simp [shape, arity]
  · simp [shape]

/-- The judgement decides the typing table, whatever the numbers in it. With numbers of 32 bits it
can be made in words of 64 bits: no operand is missed, and no sum leaves a word. -/
theorem verify_decides_table (operation : Operation) (scope : Scope) (strictness : Strictness) :
    (operation.verify scope strictness = .ok () ↔ operation.WellTyped scope strictness) ∧
      (operation.FitsWords scope → operation.verifyInWords scope strictness =
        some (operation.verify scope strictness)) :=
  ⟨operation.verify_eq_ok_iff_wellTyped scope strictness,
    fun fits => verifyInWords_eq fits strictness⟩

/-- A slice from the last bit there can be: its upper end is past every width that can be declared,
and is not mistaken for a small one. -/
theorem verify_decides_table_lastBit :
    let widest : BitType := ⟨largestWidth, by decide⟩
    let slice : Operation := ⟨.extract, [.input 0], .extract largestWidth, ⟨8, by decide⟩⟩
    slice.FitsWords (.ofInputs [widest]) ∧ ¬ slice.WellTyped (.ofInputs [widest]) {} ∧
      slice.verifyInWords (.ofInputs [widest]) {} =
        some (.error (.extractOutOfRange largestWidth 8 largestWidth)) := by
  intro widest slice
  have refused : slice.verify (.ofInputs [widest]) {} =
    .error (.extractOutOfRange largestWidth 8 largestWidth) := by decide
  have fits : slice.FitsWords (.ofInputs [widest]) := by
    refine ⟨by decide, ?_, by decide, Scope.declarable_ofInputs ?_⟩
    · rintro _ ⟨⟩
      decide
    · exact List.forall_mem_singleton.mpr (Nat.le_refl largestWidth)
  obtain ⟨decides, inWords⟩ := verify_decides_table slice (.ofInputs [widest]) {}
  refine ⟨fits, fun wellTyped => ?_, refused ▸ inWords fits⟩
  rw [decides.mpr wellTyped] at refused
  cases refused

end Operation

end BitGraph
