import DurableFlow.Json.Double

/-!
# Data values

The values that inputs, outputs, items and event payloads consist of. The fields of an object are
kept in the order of their keys, one field per key, so that the compact text of a value
(`Json.text`) does not depend on the order in which its fields were written.
-/

namespace DurableFlow

/-- A number: a whole number within 64 bits, signed or not, or a finite double by its bits. -/
inductive Number
  | int (n : Int)
  | double (bits : UInt64)
  deriving DecidableEq, Repr

/-- A data value. -/
inductive Json
  | null
  | bool (b : Bool)
  | number (n : Number)
  | text (s : String)
  | list (items : List Json)
  | object (fields : List (String × Json))
  deriving Repr

namespace Number

/-- The same number in the same form: a whole number never equals a double. -/
def same : Number → Number → Bool
  | .int a, .int b => a == b
  | .double a, .double b => Double.same a b
  | _, _ => false

/-- The number as it is written. -/
def text : Number → String
  | .int n => toString n
  | .double bits => Double.text bits

end Number

namespace Json

instance : Inhabited Json := ⟨.null⟩

/-- A whole number as a value. -/
def ofInt (n : Int) : Json := .number (.int n)

/-- A count as a value. -/
def ofNat (n : Nat) : Json := ofInt n

/-- Puts a field at the place of its key, instead of an earlier field of that key. -/
def putField (key : String) (value : Json) : List (String × Json) → List (String × Json)
  | [] => [(key, value)]
  | (k, v) :: rest =>
    if key = k then (key, value) :: rest
    else if key < k then (key, value) :: (k, v) :: rest
    else (k, v) :: putField key value rest

/-- The object with the given fields, of which the last of each key counts. -/
def ofFields (fields : List (String × Json)) : Json :=
  .object (fields.foldl (fun fs f => putField f.1 f.2 fs) [])

/-- The field of an object under a key. -/
def field? (key : String) : Json → Option Json
  | .object fields => (fields.find? fun f => f.1 == key).map Prod.snd
  | _ => none

/-- The text of a value that is a text. -/
def text? : Json → Option String
  | .text s => some s
  | _ => none

/-- Whole numbers of 64 bits with sign are those from `-signBit` up to below `signBit`. -/
def signBit : Nat := UInt64.size / 2

/-- The whole number that a value is, within signed 64 bits. -/
def int64? : Json → Option Int
  | .number (.int n) => if -signBit ≤ n ∧ n < signBit then some n else none
  | _ => none

/-! ## Equality -/

mutual

/-- Whether two values are the same. -/
def same : Json → Json → Bool
  | .null, .null => true
  | .bool a, .bool b => a == b
  | .number a, .number b => a.same b
  | .text a, .text b => a == b
  | .list a, .list b => sameItems a b
  | .object a, .object b => sameFields a b
  | _, _ => false

/-- Whether two lists have the same values in the same order. -/
def sameItems : List Json → List Json → Bool
  | [], [] => true
  | a :: as, b :: bs => same a b && sameItems as bs
  | _, _ => false

/-- Whether two objects have the same fields. -/
def sameFields : List (String × Json) → List (String × Json) → Bool
  | [], [] => true
  | (k, a) :: as, (l, b) :: bs => k == l && same a b && sameFields as bs
  | _, _ => false

end

/-! ## Compact text -/

/-- The last four bits of a number as a digit. -/
def hexDigit (n : Nat) : Char := "0123456789abcdef".toList.getD (n % 16) '0'

/-- A character as it stands within a quoted text. -/
def escape (c : Char) : List Char :=
  if c = '"' then ['\\', '"']
  else if c = '\\' then ['\\', '\\']
  else if c = '\x08' then ['\\', 'b']
  else if c = '\x0c' then ['\\', 'f']
  else if c = '\n' then ['\\', 'n']
  else if c = '\r' then ['\\', 'r']
  else if c = '\t' then ['\\', 't']
  else if c.toNat < 32 then ['\\', 'u', '0', '0', hexDigit (c.toNat / 16), hexDigit c.toNat]
  else [c]

/-- A text between quotation marks. -/
def quote (s : String) : String := "\"" ++ String.ofList (s.toList.flatMap escape) ++ "\""

mutual

/-- The value without blanks, the fields of objects in the order of their keys. -/
def compact : Json → String
  | .null => "null"
  | .bool true => "true"
  | .bool false => "false"
  | .number n => n.text
  | .text s => quote s
  | .list items => "[" ++ compactItems items ++ "]"
  | .object fields => "\x7b" ++ compactFields fields ++ "\x7d"

/-- The values of a list between commas. -/
def compactItems : List Json → String
  | [] => ""
  | [v] => compact v
  | v :: vs => compact v ++ "," ++ compactItems vs

/-- The fields of an object between commas. -/
def compactFields : List (String × Json) → String
  | [] => ""
  | [(k, v)] => quote k ++ ":" ++ compact v
  | (k, v) :: fs => quote k ++ ":" ++ compact v ++ "," ++ compactFields fs

end

end Json

end DurableFlow
