import DurableFlow.Json.Document

/-!
# Shapes of values

A shape is a type that a value is decoded into. Decoding checks the value and writes it back the
way the type does: a record fills in what may be missing and drops what it does not know.
-/

namespace DurableFlow

/-- The types that the input and the output of an instance are decoded into. -/
inductive Shape
  /-- A whole number of 64 bits without sign. -/
  | unsigned
  /-- A whole number of 64 bits with sign. -/
  | signed
  /-- A whole number below 256. -/
  | byte
  | bool
  | text
  /-- A text or nothing. -/
  | optionalText
  /-- A list of whole numbers without sign. -/
  | numbers
  /-- Whole numbers without sign under texts. -/
  | numbersByKey
  /-- A name, a count and an optional tag. -/
  | record
  | any
  deriving DecidableEq, Repr

namespace Shape

/-- The value if it is a whole number from `low` up to below `high`. -/
def wholeWithin (low high : Int) : Json → Option Json
  | .number (.int n) => if low ≤ n ∧ n < high then some (Json.ofInt n) else none
  | _ => none

/-- The value if it is a whole number of 64 bits without sign. -/
def decodeUnsigned : Json → Option Json := wholeWithin 0 UInt64.size

/-- The value if it is a text. -/
def decodeText : Json → Option Json
  | .text s => some (.text s)
  | _ => none

/-- The value if it is a text or nothing. -/
def decodeOptionalText : Json → Option Json
  | .null => some .null
  | v => decodeText v

/-- The record of a name, a count and a tag. -/
def recordOf (name count tag : Json) : Option Json := do
  return Json.ofFields
    [("name", ← decodeText name), ("count", ← decodeUnsigned count), ("tag", ← decodeOptionalText tag)]

/-- Decodes a value into a shape and writes it back. -/
def decode : Shape → Json → Option Json
  | .unsigned, v => decodeUnsigned v
  | .signed, v => wholeWithin (-Json.signBit) Json.signBit v
  | .byte, v => wholeWithin 0 256 v
  | .bool, .bool b => some (.bool b)
  | .text, v => decodeText v
  | .optionalText, v => decodeOptionalText v
  | .numbers, .list items => (items.mapM decodeUnsigned).map .list
  | .numbersByKey, .object fields =>
    (fields.mapM fun f => (decodeUnsigned f.2).map fun v => (f.1, v)).map .object
  | .record, .object fields => do
    let v := Json.object fields
    recordOf (← v.field? "name") (← v.field? "count") ((v.field? "tag").getD .null)
  | .record, .list [name, count] => recordOf name count .null
  | .record, .list [name, count, tag] => recordOf name count tag
  | .any, v => some v
  | _, _ => none

end Shape

end DurableFlow
