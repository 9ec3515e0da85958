/-
This file proves that well-formed operations compute what their types promise.
On patterns of the types of its operands, a well-formed operation has a pattern
of its result type, or it fails because it divides by zero; it fails in no other
way. The same then holds where the operands themselves have results, patterns or
failures, and since there is only one way to fail, it does not matter which
operand fails first. Operations that are not well formed can fail in a few more
ways, but these too are about arguments and patterns and never about a graph.
-/

import BitGraph.Graph.Meaning
import BitGraph.Proofs.Bits.Combining
import BitGraph.Proofs.Operation.Typing

namespace BitGraph

/-! ### Patterns of one width -/

/-- Patterns of one width are bit vectors of that width. -/
theorem exists_vectors {width : Nat} (positive : 0 < width) {patterns : List Bits}
    (same : ∀ bits ∈ patterns, bits.width = width) :
    ∃ vectors : List (BitVec width), patterns = vectors.map (Bits.mk width positive) := by
  induction patterns with
  | nil => exact ⟨[], rfl⟩
  | cons bits rest inductionHypothesis =>
    obtain ⟨vectors, rfl⟩ :=
      inductionHypothesis fun other member => same other (List.mem_cons_of_mem _ member)
    have here := same bits List.mem_cons_self
    subst here
    exact ⟨bits.value :: vectors, rfl⟩

namespace Bits

theorem zip_width {combine : {width : Nat} → BitVec width → BitVec width → BitVec width}
    {left right : Bits} (same : right.width = left.width) :
    ∃ bits, zip combine left right = .ok bits ∧ bits.width = left.width := by
  rw [zip, dif_pos same]
  exact ⟨_, rfl, rfl⟩

theorem divideBy_width {combine : {width : Nat} → BitVec width → BitVec width → BitVec width}
    {left right : Bits} (same : right.width = left.width) (apart : right.isZero = false) :
    ∃ bits, divideBy combine left right = .ok bits ∧ bits.width = left.width := by
  have divided : ¬ (right.width = left.width ∧ right.isZero = true) := by simp [apart]
  rw [divideBy, if_neg divided]
  exact zip_width same

theorem width_foldl_concat (first : Bits) (rest : List Bits) :
    (rest.foldl concat first).width = first.width + (rest.map Bits.width).sum := by
  induction rest generalizing first with
  | nil => rfl
  | cons low rest inductionHypothesis =>
    rw [List.foldl_cons, inductionHypothesis, List.map_cons, List.sum_cons, ← Nat.add_assoc]
    rfl

end Bits

theorem BitType.totalWidth_eq_sum (types : List BitType) :
    totalWidth types = (types.map width).sum := by
  induction types with
  | nil => rfl
  | cons type rest inductionHypothesis =>
    rw [totalWidth, inductionHypothesis, List.map_cons, List.sum_cons]

/-! ### Results of a type -/

/-- A pattern of the type's width. -/
def BitType.Yields (type : BitType) (result : Except GraphError Bits) : Prop :=
  ∃ bits, result = .ok bits ∧ bits.width = type.width

theorem BitType.yields_ok {type : BitType} {bits : Bits} (same : bits.width = type.width) :
    type.Yields (.ok bits) :=
  ⟨bits, rfl, same⟩

/-- What a value of a type can evaluate to: a pattern of the type's width, or the failure of a
division by zero. -/
def BitType.Admits (type : BitType) (result : Except GraphError Bits) : Prop :=
  (∃ bits, result = .ok bits ∧ bits.width = type.width) ∨
    result = .error (.bits .divisionByZero)

theorem BitType.admits_ok {type : BitType} {bits : Bits} (same : bits.width = type.width) :
    type.Admits (.ok bits) :=
  .inl ⟨bits, rfl, same⟩

theorem BitType.Admits.width {type : BitType} {bits : Bits} (admits : type.Admits (.ok bits)) :
    bits.width = type.width := by
  rcases admits with ⟨other, same, width⟩ | failed
  · cases same
    exact width
  · cases failed

/-! ### Patterns of the operands -/

/-- Operations of this kind divide by their second operand. They are the ones that can fail. -/
def Kind.Divides (kind : Kind) : Prop :=
  kind = .div ∨ kind = .mod

namespace Operation

theorem evaluate_of_algebra? {operation : Operation} {algebra : Algebra}
    (known : operation.kind.algebra? = some algebra) (arguments : List Bits) :
    operation.evaluate arguments = operation.kind.ofAll algebra arguments := by
  obtain ⟨kind, operands, attr, type⟩ := operation
  cases kind <;> cases known <;> rfl

/-- Combining at least one pattern of the result width gives their total. -/
theorem evaluate_vectors {operation : Operation} {algebra : Algebra}
    (known : operation.kind.algebra? = some algebra) (laws : algebra.Laws)
    {vectors : List (BitVec operation.type.width)} (nonempty : vectors ≠ []) :
    operation.evaluate (vectors.map (Bits.mk operation.type.width operation.type.positive)) =
      .ok ⟨operation.type.width, operation.type.positive, laws.total vectors⟩ := by
  rw [evaluate_of_algebra? known, Kind.ofAll, laws.combineAll_map _ nonempty]

/-- The constant of a well-formed constant operation. -/
theorem exists_constant? {operation : Operation} {strictness : Strictness}
    {types : List BitType} (accepts : operation.Accepts strictness types)
    (constant : operation.kind = .constant) :
    ∃ bits, operation.constant? = some bits ∧ bits.width = operation.type.width := by
  obtain ⟨kind, operands, attr, type⟩ := operation
  cases constant
  obtain ⟨shape, _, widths⟩ := accepts
  cases attr with
  | none => cases shape
  | extract lowBit => cases shape
  | constant magnitude =>
    have fit : Bits.fits type.width magnitude = true := widths magnitude rfl
    refine ⟨⟨type.width, type.positive, Bits.wrap type.width magnitude⟩, ?_, rfl⟩
    simp only [constant?, Bits.ofMagnitude_of_fits type.positive fit]
    rfl

section Typed

variable {operation : Operation} {strictness : Strictness} {types : List BitType}
  {arguments : List Bits}

theorem exists_unary (accepts : operation.Accepts strictness types)
    (unary : operation.kind.signature.operands = .unary)
    (typed : List.Forall₂ (fun bits type => bits.width = type.width) arguments types) :
    ∃ argument type, arguments = [argument] ∧ types = [type] ∧ argument.width = type.width := by
  have arity := accepts.arity
  simp only [Kind.arity, Signature.arity, unary, Arity.accepts, beq_iff_eq] at arity
  exact exists_of_forall₂_one typed arity

theorem exists_binary (accepts : operation.Accepts strictness types)
    (binary : operation.kind.signature = ⟨.binary, .sameAsOperands, .none⟩)
    (typed : List.Forall₂ (fun bits type => bits.width = type.width) arguments types) :
    ∃ left right, arguments = [left, right] ∧ left.width = operation.type.width ∧
      right.width = operation.type.width := by
  have arity := accepts.arity
  have widths := accepts.widths
  simp only [Kind.arity, Signature.arity, binary, Arity.accepts, beq_iff_eq] at arity
  simp only [WidthsFit, binary] at widths
  obtain ⟨left, right, first, second, rfl, rfl, leftWidth, rightWidth⟩ :=
    exists_of_forall₂_two typed arity
  rw [widths first List.mem_cons_self] at leftWidth
  rw [widths second (List.mem_cons_of_mem _ List.mem_cons_self)] at rightWidth
  exact ⟨left, right, rfl, leftWidth, rightWidth⟩

/-- Patterns for the operands of a sum, a product or a bitwise operation have the result
width. -/
theorem exists_vectors_of_accepts {algebra : Algebra}
    (known : operation.kind.algebra? = some algebra)
    (accepts : operation.Accepts strictness types)
    (typed : List.Forall₂ (fun bits type => bits.width = type.width) arguments types) :
    ∃ vectors : List (BitVec operation.type.width), arguments =
      vectors.map (Bits.mk operation.type.width operation.type.positive) := by
  have widths := accepts.widths
  simp only [WidthsFit, Kind.signature_of_algebra? known] at widths
  refine exists_vectors operation.type.positive fun bits member => ?_
  obtain ⟨type, isType, width⟩ := exists_of_forall₂ typed member
  rw [width, widths type isType]

/-- A sum, a product or a bitwise operation on at least one operand computes a pattern of its result
type. -/
theorem yields_of_ne_nil {algebra : Algebra} (known : operation.kind.algebra? = some algebra)
    (accepts : operation.Accepts strictness types) (nonempty : types ≠ [])
    (typed : List.Forall₂ (fun bits type => bits.width = type.width) arguments types) :
    operation.type.Yields (operation.evaluate arguments) := by
  obtain ⟨laws⟩ := Kind.nonempty_laws known
  obtain ⟨vectors, rfl⟩ := exists_vectors_of_accepts known accepts typed
  have some_ : vectors ≠ [] := by
    rintro rfl
    exact nonempty (List.forall₂_nil_left_iff.mp typed)
  rw [evaluate_vectors known laws some_]
  exact BitType.yields_ok rfl

theorem yields_of_algebra? {algebra : Algebra} (known : operation.kind.algebra? = some algebra)
    (accepts : operation.Accepts strictness types) (strict : 1 ≤ strictness.minArity)
    (typed : List.Forall₂ (fun bits type => bits.width = type.width) arguments types) :
    operation.type.Yields (operation.evaluate arguments) := by
  refine yields_of_ne_nil known accepts (accepts.ne_nil strict ?_) typed
  rw [Kind.signature_of_algebra? known]
  decide

/-- A reduction has a single bit for its result. -/
theorem yields_of_single (accepts : operation.Accepts strictness types)
    (signature : operation.kind.signature = ⟨.unary, .singleBit, .none⟩) {bits : Bits}
    (single : bits.width = 1) : operation.type.Yields (.ok bits) := by
  have widths := accepts.widths
  simp only [WidthsFit, signature] at widths
  exact BitType.yields_ok (single.trans widths.symm)

theorem yields_concat (accepts : operation.Accepts strictness types)
    (kind : operation.kind = .concat)
    (typed : List.Forall₂ (fun bits type => bits.width = type.width) arguments types) :
    operation.type.Yields (operation.kind.ofJoined arguments) := by
  have arity := accepts.arity
  have widths := accepts.widths
  simp only [Kind.arity, Signature.arity, kind, Kind.signature, Arity.accepts,
    decide_eq_true_iff] at arity
  simp only [WidthsFit, kind, Kind.signature] at widths
  cases typed with
  | nil => exact absurd arity (by simp)
  | @cons first type rest types head tail =>
    refine BitType.yields_ok ?_
    have others : rest.map Bits.width = types.map BitType.width := by
      have each := List.forall₂_map_left_iff.mpr (List.forall₂_map_right_iff.mpr tail)
      rwa [List.forall₂_eq_eq_eq] at each
    rw [Bits.width_foldl_concat, others, head, ← widths, BitType.totalWidth,
      BitType.totalWidth_eq_sum]

/-- A well-formed operation that does not divide computes a pattern of its result type. -/
theorem evaluate_yields (accepts : operation.Accepts strictness types)
    (strict : 1 ≤ strictness.minArity) (undivided : ¬ operation.kind.Divides)
    (typed : List.Forall₂ (fun bits type => bits.width = type.width) arguments types) :
    operation.type.Yields (operation.evaluate arguments) := by
  cases kind : operation.kind with
  | div => exact absurd (.inl kind) undivided
  | mod => exact absurd (.inr kind) undivided
  | constant =>
    obtain ⟨bits, known, width⟩ := exists_constant? accepts kind
    simp only [evaluate, kind, known]
    exact BitType.yields_ok width
  | add => exact yields_of_algebra? (by rw [kind]; rfl) accepts strict typed
  | mul => exact yields_of_algebra? (by rw [kind]; rfl) accepts strict typed
  | and => exact yields_of_algebra? (by rw [kind]; rfl) accepts strict typed
  | or => exact yields_of_algebra? (by rw [kind]; rfl) accepts strict typed
  | xor => exact yields_of_algebra? (by rw [kind]; rfl) accepts strict typed
  | sub =>
    obtain ⟨left, right, rfl, leftWidth, rightWidth⟩ :=
      exists_binary accepts (by rw [kind]; rfl) typed
    obtain ⟨bits, computed, width⟩ : ∃ bits, left.sub right = .ok bits ∧
        bits.width = left.width := Bits.zip_width (rightWidth.trans leftWidth.symm)
    simp only [evaluate, kind, Kind.ofTwo, computed]
    exact BitType.yields_ok (width.trans leftWidth)
  | andReduce =>
    obtain ⟨argument, type, rfl, rfl, _⟩ := exists_unary accepts (by rw [kind]; rfl) typed
    simp only [evaluate, kind, Kind.ofOne]
    exact yields_of_single accepts (by rw [kind]; rfl) rfl
  | orReduce =>
    obtain ⟨argument, type, rfl, rfl, _⟩ := exists_unary accepts (by rw [kind]; rfl) typed
    simp only [evaluate, kind, Kind.ofOne]
    exact yields_of_single accepts (by rw [kind]; rfl) rfl
  | xorReduce =>
    obtain ⟨argument, type, rfl, rfl, _⟩ := exists_unary accepts (by rw [kind]; rfl) typed
    simp only [evaluate, kind, Kind.ofOne]
    exact yields_of_single accepts (by rw [kind]; rfl) rfl
  | concat =>
    have joined := yields_concat accepts kind typed
    rw [kind] at joined
    simp only [evaluate, kind]
    exact joined
  | extract =>
    obtain ⟨argument, type, rfl, rfl, width⟩ := exists_unary accepts (by rw [kind]; rfl) typed
    have widths := accepts.widths
    simp only [WidthsFit, kind, Kind.signature, List.mem_singleton, forall_eq] at widths
    have computed : argument.extract (operation.lowBit?.getD 0) operation.type.width =
        .ok ⟨operation.type.width, operation.type.positive, Bits.wrap operation.type.width
          (argument.magnitude >>> operation.lowBit?.getD 0)⟩ := by
      rw [Bits.extract, dif_pos operation.type.positive, if_pos (width ▸ widths)]
    simp only [evaluate, kind, Kind.ofOne, computed]
    exact BitType.yields_ok rfl
  | signExtend =>
    obtain ⟨argument, type, rfl, rfl, width⟩ := exists_unary accepts (by rw [kind]; rfl) typed
    have widths := accepts.widths
    simp only [WidthsFit, kind, Kind.signature, List.mem_singleton, forall_eq] at widths
    simp only [evaluate, kind, Kind.ofOne, Bits.signExtend,
      dif_pos (Nat.le_of_lt (width ▸ widths : argument.width < operation.type.width))]
    exact BitType.yields_ok rfl
  | zeroExtend =>
    obtain ⟨argument, type, rfl, rfl, width⟩ := exists_unary accepts (by rw [kind]; rfl) typed
    have widths := accepts.widths
    simp only [WidthsFit, kind, Kind.signature, List.mem_singleton, forall_eq] at widths
    simp only [evaluate, kind, Kind.ofOne, Bits.zeroExtend,
      dif_pos (Nat.le_of_lt (width ▸ widths : argument.width < operation.type.width))]
    exact BitType.yields_ok rfl

/-- An operation that divides fails if the second argument is zero, and computes a pattern of its
result type otherwise. -/
theorem evaluate_divides (accepts : operation.Accepts strictness types)
    (divides : operation.kind.Divides)
    (typed : List.Forall₂ (fun bits type => bits.width = type.width) arguments types) :
    ∃ left right, arguments = [left, right] ∧
      (right.isZero = true → operation.evaluate arguments = .error (.bits .divisionByZero)) ∧
        (right.isZero = false → operation.type.Yields (operation.evaluate arguments)) := by
  obtain ⟨combine, signature, computes⟩ :
      ∃ combine : {width : Nat} → BitVec width → BitVec width → BitVec width,
        operation.kind.signature = ⟨.binary, .sameAsOperands, .none⟩ ∧
          ∀ left right, operation.evaluate [left, right] =
            (Bits.divideBy combine left right).mapError .bits := by
    rcases divides with kind | kind
    · exact ⟨_, by rw [kind]; rfl, fun _ _ => by simp only [evaluate, kind]; rfl⟩
    · exact ⟨_, by rw [kind]; rfl, fun _ _ => by simp only [evaluate, kind]; rfl⟩
  obtain ⟨left, right, rfl, leftWidth, rightWidth⟩ := exists_binary accepts signature typed
  have same := rightWidth.trans leftWidth.symm
  refine ⟨left, right, rfl, fun zero => ?_, fun apart => ?_⟩
  · rw [computes, Bits.divideBy, if_pos ⟨same, zero⟩]
    rfl
  · obtain ⟨bits, computed, width⟩ := Bits.divideBy_width same apart
    rw [computes, computed]
    exact BitType.yields_ok (width.trans leftWidth)

/-- A well-formed operation fails only if it divides by zero. -/
theorem evaluate_eq_error_iff (accepts : operation.Accepts strictness types)
    (strict : 1 ≤ strictness.minArity)
    (typed : List.Forall₂ (fun bits type => bits.width = type.width) arguments types)
    (reason : GraphError) :
    operation.evaluate arguments = .error reason ↔ reason = .bits .divisionByZero ∧
      operation.kind.Divides ∧ ∃ left right, arguments = [left, right] ∧ right.isZero = true := by
  by_cases divides : operation.kind.Divides
  · obtain ⟨left, right, rfl, failed, computed⟩ := evaluate_divides accepts divides typed
    cases zero : right.isZero with
    | true =>
      rw [failed zero]
      constructor
      · rintro ⟨⟩
        exact ⟨rfl, divides, left, right, rfl, zero⟩
      · rintro ⟨rfl, _⟩
        rfl
    | false =>
      obtain ⟨bits, same, _⟩ := computed zero
      simp [same, zero]
  · obtain ⟨bits, same, _⟩ := evaluate_yields accepts strict divides typed
    simp [same, divides]

/-- A well-formed operation computes a pattern of its result type or divides by zero. -/
theorem evaluate_admits (accepts : operation.Accepts strictness types)
    (strict : 1 ≤ strictness.minArity)
    (typed : List.Forall₂ (fun bits type => bits.width = type.width) arguments types) :
    operation.type.Admits (operation.evaluate arguments) := by
  by_cases divides : operation.kind.Divides
  · obtain ⟨left, right, rfl, failed, computed⟩ := evaluate_divides accepts divides typed
    cases zero : right.isZero with
    | true => exact .inr (failed zero)
    | false => exact .inl (computed zero)
  · exact .inl (evaluate_yields accepts strict divides typed)

end Typed

end Operation

/-! ### Failures of operations that need not be well formed -/

/-- A failure of computing, whatever an operation is given: the arguments are too few or too many,
the attribute is another one than its kind wants, or the patterns are refused. -/
def GraphError.OfComputing : GraphError → Prop
  | .arity _ _ _ | .wrongAttribute _ | .bits _ => True
  | _ => False

section OfComputing

variable {kind : Kind} {arguments : List Bits} {reason : GraphError}

theorem Kind.ofComputing_of_ofAll {algebra : Algebra}
    (failed : kind.ofAll algebra arguments = .error reason) : reason.OfComputing := by
  unfold ofAll at failed
  split at failed
  · cases failed
  all_goals
    cases failed
    trivial

theorem Kind.ofComputing_of_ofTwo {compute : Bits → Bits → Except BitsError Bits}
    (failed : kind.ofTwo compute arguments = .error reason) : reason.OfComputing := by
  unfold ofTwo at failed
  split at failed
  · obtain ⟨_, _, rfl⟩ := mapError_eq_error_iff.mp failed
    trivial
  · cases failed
    trivial

theorem Kind.ofComputing_of_ofOne {compute : Bits → Except BitsError Bits}
    (failed : kind.ofOne compute arguments = .error reason) : reason.OfComputing := by
  unfold ofOne at failed
  split at failed
  · obtain ⟨_, _, rfl⟩ := mapError_eq_error_iff.mp failed
    trivial
  · cases failed
    trivial

theorem Kind.ofComputing_of_ofJoined (failed : kind.ofJoined arguments = .error reason) :
    reason.OfComputing := by
  unfold ofJoined at failed
  split at failed
  · cases failed
    trivial
  · cases failed

theorem Operation.ofComputing_of_evaluate {operation : Operation}
    (failed : operation.evaluate arguments = .error reason) : reason.OfComputing := by
  cases kind : operation.kind <;> simp only [Operation.evaluate, kind] at failed
  case constant =>
    split at failed
    · cases failed
    · cases failed
      trivial
  case add | mul | and | or | xor => exact Kind.ofComputing_of_ofAll failed
  case sub | div | mod => exact Kind.ofComputing_of_ofTwo failed
  case concat => exact Kind.ofComputing_of_ofJoined failed
  all_goals exact Kind.ofComputing_of_ofOne failed

end OfComputing

/-! ### Results of the operands -/

/-- Either all results are patterns, or there is the one failure there can be, and it does not
matter which comes first. -/
theorem mapM_cases {results : List (Except GraphError Bits)}
    (each : ∀ result ∈ results, (∃ bits, result = .ok bits) ∨
      result = .error (.bits .divisionByZero)) :
    (∃ patterns, results = patterns.map .ok ∧ results.mapM id = .ok patterns) ∨
      (.error (.bits .divisionByZero) ∈ results ∧
        results.mapM id = .error (.bits .divisionByZero)) := by
  induction results with
  | nil => exact .inl ⟨[], rfl, rfl⟩
  | cons result rest inductionHypothesis =>
    rcases each result List.mem_cons_self with ⟨bits, rfl⟩ | rfl
    · rcases inductionHypothesis fun other member => each other (List.mem_cons_of_mem _ member) with
        ⟨patterns, rfl, all⟩ | ⟨member, failed⟩
      · refine .inl ⟨bits :: patterns, rfl, ?_⟩
        rw [List.mapM_cons, all]
        rfl
      · refine .inr ⟨List.mem_cons_of_mem _ member, ?_⟩
        rw [List.mapM_cons, failed]
        rfl
    · refine .inr ⟨List.mem_cons_self, ?_⟩
      rw [List.mapM_cons]
      rfl

namespace Operation

theorem combine_map_ok (operation : Operation) (arguments : List Bits) :
    operation.combine (arguments.map .ok) = operation.evaluate arguments := by
  have all : (arguments.map (Except.ok (ε := GraphError))).mapM id = .ok arguments := by
    rw [mapM_eq_ok_iff, List.forall₂_map_left_iff]
    exact List.forall₂_same.mpr fun _ _ => rfl
  rw [combine, all]
  rfl

/-- Either all operands have patterns, or the operation fails with the one failure there is. -/
theorem combine_cases (operation : Operation) {results : List (Except GraphError Bits)}
    {types : List BitType}
    (admits : List.Forall₂ (fun result type => type.Admits result) results types) :
    (∃ arguments, results = arguments.map .ok ∧
      List.Forall₂ (fun bits type => bits.width = type.width) arguments types ∧
      operation.combine results = operation.evaluate arguments) ∨
    (.error (.bits .divisionByZero) ∈ results ∧
      operation.combine results = .error (.bits .divisionByZero)) := by
  have each : ∀ result ∈ results, (∃ bits, result = .ok bits) ∨
      result = .error (.bits .divisionByZero) := by
    intro result member
    obtain ⟨type, _, admitted⟩ := exists_of_forall₂ admits member
    exact admitted.imp_left fun ⟨bits, same, _⟩ => ⟨bits, same⟩
  rcases mapM_cases each with ⟨arguments, rfl, _⟩ | ⟨member, failed⟩
  · refine .inl ⟨arguments, rfl, ?_, combine_map_ok operation arguments⟩
    exact (List.forall₂_map_left_iff.mp admits).imp fun _ _ => BitType.Admits.width
  · refine .inr ⟨member, ?_⟩
    rw [combine, failed]
    rfl

/-- A well-formed operation on results of the types of its operands has a result of its own
type. -/
theorem combine_admits {operation : Operation} {strictness : Strictness}
    {results : List (Except GraphError Bits)} {types : List BitType}
    (accepts : operation.Accepts strictness types) (strict : 1 ≤ strictness.minArity)
    (admits : List.Forall₂ (fun result type => type.Admits result) results types) :
    operation.type.Admits (operation.combine results) := by
  rcases operation.combine_cases admits with ⟨arguments, _, typed, computed⟩ | ⟨_, failed⟩
  · rw [computed]
    exact evaluate_admits accepts strict typed
  · exact .inr failed

end Operation

end BitGraph
