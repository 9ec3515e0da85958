/-
This file proves that operations that were judged to be well formed do not go wrong.
On patterns of the widths that the scope gives to their operands they compute a
pattern of their result width, or they divide by zero. The same comes out where a
pattern is no more than a width and a magnitude: no magnitude outgrows its width, and
since a concatenation grows one operand after the other, none of the widths on the
way is larger than the last one.
-/

import BitGraph.Proofs.Bits.Numbers
import BitGraph.Proofs.Operation.TypingTable

namespace BitGraph

/-! ### Computing in numbers -/

namespace Figures

/-- Combine a positive number of patterns from the left. -/
def combineAll? (compute : Nat → Nat → Nat → Nat) : List Figures → Option Figures
  | [] => none
  | first :: rest => rest.foldlM (zip? compute) first

/-- Compute from two patterns. -/
def pair? (compute : Nat → Nat → Nat → Nat) : List Figures → Option Figures
  | [left, right] => zip? compute left right
  | _ => none

/-- Compute from one pattern. -/
def single? (compute : Figures → Option Figures) : List Figures → Option Figures
  | [figures] => compute figures
  | _ => none

/-- Join a positive number of patterns, the most significant first. -/
def joinAll? : List Figures → Option Figures
  | [] => none
  | first :: rest => rest.foldlM concat? first

end Figures

/-- What an operation computes from its operands, all of them written in numbers. -/
def Operation.evaluateInNumbers (operation : Operation) : List Figures → Option Figures :=
  let width := operation.type.width
  match operation.kind with
  | .constant => fun _ => operation.constant?.map Bits.figures
  | .add => Figures.combineAll? fun width left right => (left + right) % 2 ^ width
  | .mul => Figures.combineAll? fun width left right => left * right % 2 ^ width
  | .and => Figures.combineAll? fun _ left right => left &&& right
  | .or => Figures.combineAll? fun _ left right => left ||| right
  | .xor => Figures.combineAll? fun _ left right => left ^^^ right
  | .sub => Figures.pair? fun width left right => (left + 2 ^ width - right) % 2 ^ width
  | .div => Figures.pair? fun _ left right => left / right
  | .mod => Figures.pair? fun _ left right => left % right
  | .andReduce => Figures.single? fun figures =>
    some (.ofBool (figures.magnitude == 2 ^ figures.width - 1))
  | .orReduce => Figures.single? fun figures => some (.ofBool (figures.magnitude != 0))
  | .xorReduce => Figures.single? fun figures => some (.ofBool (Bits.oddParity figures.magnitude))
  | .concat => Figures.joinAll?
  | .extract => Figures.single? (·.extract? (operation.lowBit?.getD 0) width)
  | .signExtend => Figures.single? (·.signExtend? width)
  | .zeroExtend => Figures.single? (·.zeroExtend? width)

namespace Bits

/-- No pattern on the way is wider than what is joined in the end. -/
theorem width_le_of_mem_scanl {first joined : Bits} {rest : List Bits}
    (member : joined ∈ rest.scanl concat first) :
    joined.width ≤ (rest.foldl concat first).width := by
  induction rest generalizing first with
  | nil =>
    rw [List.scanl_nil, List.mem_singleton] at member
    exact Nat.le_of_eq (congrArg width member)
  | cons low rest inductionHypothesis =>
    rw [List.scanl_cons, List.mem_cons] at member
    rcases member with rfl | later
    · rw [width_foldl_concat]
      exact Nat.le_add_right _ _
    · exact inductionHypothesis later

/-- Where the whole takes a width that can be declared, so does each part of it. -/
theorem foldlM_concat {first : Bits} {rest : List Bits}
    (small : (rest.foldl concat first).width ≤ largestWidth) :
    (rest.map figures).foldlM Figures.concat? first.figures =
      some (rest.foldl concat first).figures := by
  induction rest generalizing first with
  | nil => rfl
  | cons low rest inductionHypothesis =>
    have part : (first.concat low).width ≤ (rest.foldl concat (first.concat low)).width := by
      rw [width_foldl_concat]
      exact Nat.le_add_right _ _
    rw [List.map_cons, List.foldlM_cons, figures_concat (part.trans small)]
    exact inductionHypothesis small

theorem foldlM_combine {combine : Bits → Bits → Except BitsError Bits}
    {compute : Nat → Nat → Nat → Nat} (computes : Computes combine compute) {first last : Bits}
    {rest : List Bits} (combined : rest.foldlM combine first = .ok last) :
    (rest.map figures).foldlM (Figures.zip? compute) first.figures = some last.figures := by
  induction rest generalizing first with
  | nil =>
    cases combined
    rfl
  | cons next rest inductionHypothesis =>
    rw [List.foldlM_cons] at combined
    cases here : combine first next with
    | error reason =>
      rw [here] at combined
      cases combined
    | ok between =>
      rw [here] at combined
      rw [List.map_cons, List.foldlM_cons, computes first next between here]
      exact inductionHypothesis combined

end Bits

section Numbers

variable {kind : Kind} {arguments : List Bits} {bits : Bits}

theorem Kind.figures_ofAll {algebra : Algebra} {compute : Nat → Nat → Nat → Nat}
    (computes : Bits.Computes algebra.combine compute)
    (computed : kind.ofAll algebra arguments = .ok bits) :
    Figures.combineAll? compute (arguments.map Bits.figures) = some bits.figures := by
  cases arguments with
  | nil => cases computed
  | cons first rest =>
    unfold ofAll Algebra.combineAll at computed
    cases combined : rest.foldlM algebra.combine first with
    | error reason =>
      simp only [combined] at computed
      cases computed
    | ok last =>
      simp only [combined] at computed
      cases computed
      exact Bits.foldlM_combine computes combined

theorem Kind.figures_ofTwo {combine : Bits → Bits → Except BitsError Bits}
    {compute : Nat → Nat → Nat → Nat} (computes : Bits.Computes combine compute)
    (computed : kind.ofTwo combine arguments = .ok bits) :
    Figures.pair? compute (arguments.map Bits.figures) = some bits.figures := by
  match arguments with
  | [left, right] => exact computes left right bits (mapError_eq_ok_iff.mp computed)
  | [] | [_] | _ :: _ :: _ :: _ => cases computed

theorem Kind.figures_ofOne {reduce : Bits → Except BitsError Bits}
    {compute : Figures → Option Figures} (computes : ∀ argument result,
      reduce argument = .ok result → compute argument.figures = some result.figures)
    (computed : kind.ofOne reduce arguments = .ok bits) :
    Figures.single? compute (arguments.map Bits.figures) = some bits.figures := by
  match arguments with
  | [argument] => exact computes argument bits (mapError_eq_ok_iff.mp computed)
  | [] | _ :: _ :: _ => cases computed

theorem Kind.figures_ofJoined (small : bits.width ≤ largestWidth)
    (computed : kind.ofJoined arguments = .ok bits) :
    Figures.joinAll? (arguments.map Bits.figures) = some bits.figures := by
  cases arguments with
  | nil => cases computed
  | cons first rest =>
    cases computed
    exact Bits.foldlM_concat small

/-- Whatever an operation computes is computed in numbers as well. -/
theorem Operation.evaluateInNumbers_of_ok {operation : Operation}
    (computed : operation.evaluate arguments = .ok bits) (small : bits.width ≤ largestWidth) :
    operation.evaluateInNumbers (arguments.map Bits.figures) = some bits.figures := by
  unfold evaluateInNumbers
  unfold evaluate at computed
  cases kind : operation.kind <;> simp only [kind] at computed ⊢
  case constant =>
    cases known : operation.constant? with
    | none =>
      rw [known] at computed
      cases computed
    | some constant =>
      rw [known] at computed
      cases computed
      rfl
  case add => exact Kind.figures_ofAll Bits.computes_add computed
  case mul => exact Kind.figures_ofAll Bits.computes_mul computed
  case and => exact Kind.figures_ofAll Bits.computes_and computed
  case or => exact Kind.figures_ofAll Bits.computes_or computed
  case xor => exact Kind.figures_ofAll Bits.computes_xor computed
  case sub => exact Kind.figures_ofTwo Bits.computes_sub computed
  case div => exact Kind.figures_ofTwo Bits.computes_udiv computed
  case mod => exact Kind.figures_ofTwo Bits.computes_urem computed
  case andReduce =>
    refine Kind.figures_ofOne (fun argument result reduced => ?_) computed
    cases reduced
    exact congrArg some argument.figures_reduceAnd.symm
  case orReduce =>
    refine Kind.figures_ofOne (fun argument result reduced => ?_) computed
    cases reduced
    exact congrArg some (Bits.figures_ofBool _).symm
  case xorReduce =>
    refine Kind.figures_ofOne (fun argument result reduced => ?_) computed
    cases reduced
    exact congrArg some (Bits.figures_ofBool _).symm
  case concat => exact Kind.figures_ofJoined small computed
  case extract => exact Kind.figures_ofOne (fun _ _ => Bits.figures_extract) computed
  case signExtend => exact Kind.figures_ofOne (fun _ _ => Bits.figures_signExtend) computed
  case zeroExtend => exact Kind.figures_ofOne (fun _ _ => Bits.figures_zeroExtend) computed

end Numbers

/-! ### Operations on patterns of their operands -/

namespace Operation

/-- There is one pattern for each operand, of the width that the scope gives to it. -/
def Matches (operation : Operation) (scope : Scope) (arguments : List Bits) : Prop :=
  List.Forall₂ (fun value bits => (scope.typeOf value).map BitType.width = some bits.width)
    operation.operands arguments

/-- The operation is a quotient or a remainder, and the second pattern is zero. -/
def DividesByZero (operation : Operation) (arguments : List Bits) : Prop :=
  operation.kind.Divides ∧ ∃ divisor, arguments[1]? = some divisor ∧ divisor.magnitude = 0

variable {operation : Operation} {scope : Scope} {strictness : Strictness}
  {types : List BitType} {arguments : List Bits}

theorem exists_types_of_matches (verified : operation.verify scope strictness = .ok ())
    (matching : operation.Matches scope arguments) :
    ∃ types, operation.Accepts strictness types ∧
      List.Forall₂ (fun bits type => bits.width = type.width) arguments types := by
  obtain ⟨types, typed, accepts⟩ := (operation.verify_eq_ok_iff scope strictness).mp verified
  refine ⟨types, accepts, forall₂_of_common (fun value bits type measured known => ?_)
    matching typed⟩
  rw [known] at measured
  exact (Option.some.inj measured).symm

/-- A well-formed operation fails exactly if it divides by zero. -/
theorem evaluate_eq_divisionByZero_iff (accepts : operation.Accepts strictness types)
    (strict : 1 ≤ strictness.minArity)
    (typed : List.Forall₂ (fun bits type => bits.width = type.width) arguments types) :
    operation.evaluate arguments = .error (.bits .divisionByZero) ↔
      operation.DividesByZero arguments := by
  rw [evaluate_eq_error_iff accepts strict typed]
  constructor
  · rintro ⟨_, divides, left, right, rfl, zero⟩
    exact ⟨divides, right, rfl, beq_iff_eq.mp zero⟩
  · rintro ⟨divides, divisor, second, zero⟩
    obtain ⟨left, right, rfl, _⟩ := evaluate_divides accepts divides typed
    cases second
    exact ⟨rfl, divides, left, divisor, rfl, beq_iff_eq.mpr zero⟩

/-- A well-formed concatenation grows up to its result width. -/
theorem width_le_of_joining (accepts : operation.Accepts strictness types)
    (kind : operation.kind = .concat)
    (typed : List.Forall₂ (fun bits type => bits.width = type.width) arguments types) :
    ∃ first rest, arguments = first :: rest ∧
      ∀ joined ∈ rest.scanl Bits.concat first, joined.width ≤ operation.type.width := by
  obtain ⟨whole, computed, width⟩ := yields_concat accepts kind typed
  cases arguments with
  | nil => cases computed
  | cons first rest =>
    refine ⟨first, rest, rfl, fun joined member => ?_⟩
    rw [← width, ← Except.ok.inj computed]
    exact Bits.width_le_of_mem_scanl member

/-- An operation that was judged to be well formed computes a pattern of its result width, and the
same one in numbers, unless it divides by zero. What a concatenation goes through is never wider
than its result. -/
theorem evaluate_safe (strict : 1 ≤ strictness.minArity)
    (verified : operation.verify scope strictness = .ok ())
    (matching : operation.Matches scope arguments) :
    (operation.evaluate arguments = .error (.bits .divisionByZero) ↔
      operation.DividesByZero arguments) ∧
    (¬ operation.DividesByZero arguments → ∃ bits, operation.evaluate arguments = .ok bits ∧
      bits.width = operation.type.width ∧ bits.magnitude < 2 ^ operation.type.width ∧
      (operation.type.Declarable →
        operation.evaluateInNumbers (arguments.map Bits.figures) = some bits.figures)) ∧
    (operation.kind = .concat → ∃ first rest, arguments = first :: rest ∧
      ∀ joined ∈ rest.scanl Bits.concat first, joined.width ≤ operation.type.width) := by
  obtain ⟨types, accepts, typed⟩ := exists_types_of_matches verified matching
  have failsIff := evaluate_eq_divisionByZero_iff accepts strict typed
  refine ⟨failsIff, fun divided => ?_, fun kind => width_le_of_joining accepts kind typed⟩
  rcases evaluate_admits accepts strict typed with ⟨bits, computed, width⟩ | failed
  · exact ⟨bits, computed, width, width ▸ bits.value.isLt, fun declarable =>
      evaluateInNumbers_of_ok computed (width ▸ declarable)⟩
  · exact absurd (failsIff.mp failed) divided

/-- A remainder by zero fails. The same patterns joined are the numbers 51200 and 16. -/
theorem evaluate_safe_remainder :
    let byte : BitType := ⟨8, by decide⟩
    let scope : Scope := .ofInputs [byte, byte]
    let remainder : Operation := ⟨.mod, [.input 0, .input 1], .none, byte⟩
    let joined : Operation := ⟨.concat, [.input 0, .input 1], .none, ⟨16, by decide⟩⟩
    let arguments : List Bits := [⟨8, by decide, 200#8⟩, ⟨8, by decide, 0#8⟩]
    remainder.verify scope {} = .ok () ∧ joined.verify scope {} = .ok () ∧
      remainder.evaluate arguments = .error (.bits .divisionByZero) ∧
      joined.evaluateInNumbers [⟨8, 200⟩, ⟨8, 0⟩] = some ⟨16, 51200⟩ := by
  intro byte scope remainder joined arguments
  have verifiedRemainder : remainder.verify scope {} = .ok () := by decide
  have verifiedJoined : joined.verify scope {} = .ok () := by decide
  have matching : List.Forall₂ (fun value (bits : Bits) =>
      (scope.typeOf value).map BitType.width = some bits.width) [.input 0, .input 1] arguments :=
    .cons rfl (.cons rfl .nil)
  have failed := (evaluate_safe (by decide) verifiedRemainder matching).1.mpr
    ⟨.inr rfl, _, rfl, by decide⟩
  obtain ⟨_, succeeds, _⟩ := evaluate_safe (by decide) verifiedJoined matching
  obtain ⟨bits, computed, _, _, inNumbers⟩ := succeeds fun ⟨divides, _⟩ => by
    rcases divides with kind | kind <;> cases kind
  cases computed
  exact ⟨verifiedRemainder, verifiedJoined, failed, inNumbers (by decide)⟩

end Operation

end BitGraph
