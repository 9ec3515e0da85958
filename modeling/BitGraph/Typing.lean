/-
This file states when an operation is well formed. The rules read the kind's
signature, the attribute, the declared result type and the types of the
operands, never their patterns. They are judged in a fixed order: the
attribute, the number of operands, the operands' existence, the widths.
-/

import BitGraph.Error

namespace BitGraph

/-- The types of values, or the first value that has none. -/
def Scope.types (scope : Scope) (values : List Value) : Except GraphError (List BitType) :=
  values.mapM fun value =>
    match scope.typeOf value with
    | some type => .ok type
    | none => .error (.unknownValue value)

/-- Whether an attribute has the shape a signature asks for. -/
def Attribute.hasShape : Attribute → AttributeShape → Bool
  | .none, .none => true
  | .constant _, .constant => true
  | .extract _, .extract => true
  | _, _ => false

namespace Operation

/-- Judge the result type against the types of the operands. The widths are natural numbers,
so no sum of them wraps around. -/
def checkWidths (operation : Operation) (operands : List BitType) : Except GraphError Unit :=
  let kind := operation.kind
  let width := operation.type.width
  match kind.signature.result with
  | .declared =>
    match operation.attr with
    | .constant magnitude =>
      if Bits.fits width magnitude then .ok () else .error (.constantTooWide width magnitude)
    | .none | .extract _ => .ok ()
  | .sameAsOperands =>
    match operands.find? (· ≠ operation.type) with
    | some other => .error (.widthMismatch kind width other.width)
    | none => .ok ()
  | .singleBit => if width = 1 then .ok () else .error (.widthMismatch kind 1 width)
  | .sumOfOperands =>
    let total := BitType.totalWidth operands
    if total = width then .ok ()
    else if total ≤ largestWidth then .error (.widthMismatch kind total width)
    else .error (.resultTooWide kind)
  | .declaredNarrowerOrEqual =>
    let lowBit := operation.lowBit?.getD 0
    match operands.find? (fun operand => operand.width < lowBit + width) with
    | some operand => .error (.extractOutOfRange lowBit width operand.width)
    | none => .ok ()
  | .declaredWider =>
    match operands.find? (fun operand => width ≤ operand.width) with
    | some operand => .error (.extensionNotWider kind operand.width width)
    | none => .ok ()

/-- Judge an operation in a scope. -/
def verify (operation : Operation) (scope : Scope) (strictness : Strictness) :
    Except GraphError Unit :=
  let kind := operation.kind
  if operation.attr.hasShape kind.signature.attr then
    if (kind.arity strictness).accepts operation.operands.length then
      (scope.types operation.operands).bind operation.checkWidths
    else
      .error (.arity kind (kind.arity strictness) operation.operands.length)
  else
    .error (.wrongAttribute kind)

end Operation

/-- The result type that a kind gives to operands of these types, for the kinds that
determine it. Whether the operands agree with each other is left to the judgement of the
whole operation. -/
def Kind.inferType (kind : Kind) (strictness : Strictness) (operands : List BitType) :
    Except GraphError BitType :=
  match kind.signature.result with
  | .singleBit => .ok .bit
  | .sameAsOperands =>
    match operands with
    | [] => .error (.arity kind (kind.arity strictness) 0)
    | first :: _ => .ok first
  | .sumOfOperands =>
    match operands with
    | [] => .error (.arity kind (kind.arity strictness) 0)
    | first :: rest =>
      match BitType.concatenated? (first :: rest) with
      | some type => .ok type
      | none => .error (.resultTooWide kind)
  | .declared | .declaredNarrowerOrEqual | .declaredWider => .error (.missingResultType kind)

end BitGraph
