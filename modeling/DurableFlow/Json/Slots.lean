import DurableFlow.Json.Document

/-!
# Slots of a record

A record with named slots is written as an object, with the slots in any order and each at most
once, or as the list of its slots in their own order, of which those at the end may be left out.
Whether fields of other names are passed over or refused is up to the record.
-/

namespace DurableFlow

namespace Document

/-- The slot of that name in the fields of an object: missing, there, or (`none`) there twice. -/
def slot? (name : String) (fields : List (Option String × Document)) : Option (Option Document) :=
  match fields.filter fun f => f.1 == some name with
  | [] => some none
  | [f] => some (some f.2)
  | _ => none

/-- The slots of those names. -/
def slots (names : List String) (strict : Bool) : Document → Option (List (Option Document))
  | object fields =>
    if fields.all fun f => f.1.any fun name => !strict || names.contains name then
      names.mapM fun name => slot? name fields
    else none
  | list items =>
    if items.length ≤ names.length then
      some (items.map some ++ List.replicate (names.length - items.length) none)
    else none
  | _ => none

/-- The text that a document is. -/
def text? : Document → Option String
  | text s => s
  | _ => none

/-- The whole number below a bound that a document is. -/
def natBelow? (bound : Nat) : Document → Option Nat
  | number (some (.int n)) => if 0 ≤ n ∧ n < bound then some n.toNat else none
  | _ => none

mutual

/-- The document that a value is written as. -/
def ofJson : Json → Document
  | .null => null
  | .bool b => bool b
  | .number n => number (some n)
  | .text s => text (some s)
  | .list items => list (ofItems items)
  | .object fields => object (ofFields fields)

/-- The documents of the values of a list. -/
def ofItems : List Json → List Document
  | [] => []
  | v :: vs => ofJson v :: ofItems vs

/-- The documents of the fields of an object. -/
def ofFields : List (String × Json) → List (Option String × Document)
  | [] => []
  | (k, v) :: fs => (some k, ofJson v) :: ofFields fs

end

end Document

end DurableFlow
