/-
This file states the JSON forms of the things graphs are made of: patterns,
types, kinds, values, attributes, numbers of operations and inputs, and
operations. Patterns and types are read through their checked constructors, so
what is read out of JSON is as sound as what is built.
-/

import BitGraph.Arena
import BitGraph.Json.Decode
import BitGraph.Operation

namespace BitGraph

/-! ### Patterns and types -/

/-- The form of a pattern. -/
def Bits.encode (bits : Bits) : Json :=
  .object [("width", .natural bits.width), ("magnitude", .magnitude bits.magnitude)]

/-- The pattern of a form. -/
def Bits.decode (json : Json) : Decoded Bits := do
  match ← json.fields ["width", "magnitude"] with
  | [width, magnitude] =>
    let width ← Json.required Json.decodeWord width
    let magnitude ← Json.required Json.decodeMagnitude magnitude
    (Bits.ofMagnitude width magnitude).mapError .refused
  | _ => .error .malformed

/-- The form of a type. -/
def BitType.encode (type : BitType) : Json :=
  .object [("width", .natural type.width)]

/-- The type of a form. -/
def BitType.decode (json : Json) : Decoded BitType := do
  match ← json.fields ["width"] with
  | [width] =>
    let width ← Json.required Json.decodeWord width
    (BitType.ofWidth width).mapError .refused
  | _ => .error .malformed

/-! ### Kinds and attributes -/

namespace Kind

/-- The name of a kind in its form. -/
def tag : Kind → String
  | .constant => "Constant"
  | .add => "Add"
  | .sub => "Sub"
  | .mul => "Mul"
  | .div => "Div"
  | .mod => "Mod"
  | .and => "And"
  | .or => "Or"
  | .xor => "Xor"
  | .andReduce => "AndReduce"
  | .orReduce => "OrReduce"
  | .xorReduce => "XorReduce"
  | .concat => "Concat"
  | .extract => "Extract"
  | .signExtend => "SignExtend"
  | .zeroExtend => "ZeroExtend"

/-- The form of a kind. -/
def encode (kind : Kind) : Json :=
  .string kind.tag

/-- The kind of a form. -/
def decode (json : Json) : Decoded Kind :=
  json.decodeNamed all tag

end Kind

namespace Attribute

/-- The form of an attribute. -/
def encode : Attribute → Json
  | .none => .string "None"
  | .constant magnitude => .object [("Constant", .magnitude magnitude)]
  | .extract lowBit => .object [("Extract", .object [("low_bit", .natural lowBit)])]

/-- The attribute of a form. The lowest bit of a slice stands in an object. -/
def decode (json : Json) : Decoded Attribute := do
  match ← json.choice with
  | ("None", carried) => if Json.carriesNothing carried then .ok .none else .error .malformed
  | ("Constant", some carried) => return .constant (← carried.decodeMagnitude)
  | ("Extract", some (.object members)) =>
    return .extract (← Json.required Json.decodeWord (members.lookup "low_bit"))
  | _ => .error .malformed

end Attribute

/-! ### Values and operations -/

namespace Value

/-- The form of a value. -/
def encode : Value → Json
  | .input index => .object [("Input", .natural index)]
  | .result id => .object [("Op", .natural id)]

/-- The value of a form. -/
def decode (json : Json) : Decoded Value := do
  match ← json.choice with
  | ("Input", some carried) => return .input (← carried.decodeWord)
  | ("Op", some carried) => return .result (← carried.decodeWord)
  | _ => .error .malformed

end Value

/-- The form of an operation. -/
def Operation.encode (operation : Operation) : Json :=
  .object [
    ("kind", operation.kind.encode),
    ("operands", .array (operation.operands.map Value.encode)),
    ("attrs", operation.attr.encode),
    ("result_ty", operation.type.encode)]

/-! ### Numbered collections -/

/-- The form of a numbered collection: its items in order. -/
def Arena.encode {Item : Type} (encode : Item → Json) (arena : Arena Item) : Json :=
  .object [("items", .array (arena.toList.map encode))]

/-- The numbered collection of a form. -/
def Arena.decode {Item : Type} (decode : Json → Decoded Item) (json : Json) :
    Decoded (Arena Item) := do
  match ← json.fields ["items"] with
  | [items] => return .ofList (← Json.required (Json.decodeList decode) items)
  | _ => .error .malformed

end BitGraph
