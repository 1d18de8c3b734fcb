import DurableFlow.Script.Blueprint

/-!
# Written scripts

Scripts are written as values. An expression is the value that it stands for, unless it is an object
of one field whose key starts with a dollar sign and is known; a test is an object of one field; an
operation is a list that starts with its name; a step is an object that names what it does. What a
value does not say is taken as empty.

A script is nested no deeper than the value that it is written as, so that the depth to which values
are read bounds the recursion.
-/

namespace DurableFlow

namespace Json

/-- The text that a value is, else the empty one. -/
def asText (v : Json) : String := v.text?.getD ""

/-- The number without sign that a value is, else nothing. -/
def asNat : Json → Nat
  | .number (.int n) => n.toNat
  | _ => 0

/-- The items of a list, of which other values have none. -/
def asList : Json → List Json
  | .list items => items
  | _ => []

/-- The item at a place of a list. -/
def item (v : Json) (n : Nat) : Json := v.asList.getD n .null

/-- The field under a key, else null. -/
def fieldOrNull (v : Json) (key : String) : Json := (v.field? key).getD .null

/-- The text under a key, if there is one. -/
def textField? (v : Json) (key : String) : Option String := (v.field? key).bind text?

/-- The text under a key, else another one. -/
def textField (v : Json) (key : String) (default : String := "") : String :=
  (v.textField? key).getD default

/-- The truth value under a key, else another one. -/
def boolField (v : Json) (key : String) (default : Bool) : Bool :=
  match v.field? key with
  | some (.bool b) => b
  | _ => default

end Json

namespace Expression

/-- The expression that a value is, read to a depth. -/
def ofJsonWithin : (depth : Nat) → Json → Expression
  | 0, j => .literal j
  | depth + 1, j =>
    match j with
    | .object [(key, v)] =>
      if key = "$input" then .input
      else if key = "$output" then .output
      else if key = "$item" then .item v.asText
      else if key = "$instance" then .inst
      else if key = "$workflow" then .workflow
      else if key = "$payload" then .payload
      else if key = "$field" then .field (ofJsonWithin depth (v.item 0)) (v.item 1).asText
      else if key = "$inc" then .increment (ofJsonWithin depth v)
      else if key = "$concat" then .concat (v.asList.map (ofJsonWithin depth))
      else if key = "$panic" then .panic v.asText
      else .literal j
    | _ => .literal j

/-- The expression that a value is. -/
def ofJson (j : Json) : Expression := ofJsonWithin Document.depthLimit j

end Expression

namespace Test

/-- The test that a value is, read to a depth. -/
def ofJsonWithin : (depth : Nat) → Json → Test
  | 0, _ => .const false
  | depth + 1, j =>
    match j with
    | .object [(key, v)] =>
      if key = "const" then .const (j.boolField key false)
      else if key = "flag" then .flag v.asText
      else if key = "has_item" then .hasItem v.asText
      else if key = "has_output" then .hasOutput
      else if key = "has_event" then .hasEvent v.asText
      else if key = "eq" then .equal (.ofJson (v.item 0)) (.ofJson (v.item 1))
      else if key = "lt" then .less (.ofJson (v.item 0)) (.ofJson (v.item 1))
      else if key = "not" then .not (ofJsonWithin depth v)
      else if key = "panic" then .panic v.asText
      else if key = "error" then .error v.asText
      else if key = "custom" then .custom v.asText
      else .const false
    | _ => .const false

/-- The test that a value is. -/
def ofJson (j : Json) : Test := ofJsonWithin Document.depthLimit j

end Test

/-- The shape of that name. -/
def Shape.ofName (name : String) : Shape :=
  if name = "u64" then .unsigned
  else if name = "i64" then .signed
  else if name = "u8" then .byte
  else if name = "bool" then .bool
  else if name = "string" then .text
  else if name = "opt_string" then .optionalText
  else if name = "vec_u64" then .numbers
  else if name = "map_u64" then .numbersByKey
  else if name = "record" then .record
  else .any

namespace Duration

/-- The duration of the seconds that a value is. -/
def ofSecondsJson (j : Json) : Duration := .ofSeconds (UInt64.ofNat j.asNat)

/-- The duration that the fields of a value say. -/
def ofJson (j : Json) : Duration :=
  let nanos := (j.fieldOrNull "nanos").asNat
  if j.boolField "max" false then .longest
  else if (j.field? "millis").isSome then .ofMillis (UInt64.ofNat (j.fieldOrNull "millis").asNat)
  else if h : nanos < nanosPerSecond then
    .ofParts (UInt64.ofNat (j.fieldOrNull "secs").asNat) ⟨nanos, h⟩
  else .ofSecondsJson (j.fieldOrNull "secs")

end Duration

namespace Operation

/-- The operation of a name with two arguments, but for a choice. -/
def ofName (name : String) (first second : Json) : Option Operation :=
  let s := first.asText
  let e := Expression.ofJson first
  if name = "instance_id" then some .tellInst
  else if name = "workflow" then some .tellWorkflow
  else if name = "input" then some .tellInput
  else if name = "output" then some .tellOutput
  else if name = "item" then some (.tellItem s)
  else if name = "items" then some .tellItems
  else if name = "flag" then some (.tellFlag s)
  else if name = "event" then some .tellEvent
  else if name = "set_input" then some (.setInput e)
  else if name = "set_output" || name = "set_output_value" then some (.setOutput e)
  else if name = "set_output_bad" then some .setUnwritable
  else if name = "take_output" then some .takeOutput
  else if name = "set_item" then some (.setItem s (.ofJson second))
  else if name = "remove_item" then some (.removeItem s)
  else if name = "deliver_event" then some (.deliver s (.ofJson second))
  else if name = "take_event" then some (.take s)
  else if name = "input_as" then some (.inputAs (.ofName s))
  else if name = "output_as" then some (.outputAs (.ofName s))
  else if name = "note" then some (.note e)
  else if name = "snap" then some .snapshot
  else if name = "cancel" then some .cancel
  else if name = "fail" then some (.fail (.plain s))
  else if name = "fail_custom" then some (.fail (.custom s))
  else if name = "panic" then some (.panic (.text s))
  else if name = "panic_str" then some (.panic (.text "static panic text"))
  else if name = "panic_any" then some (.panic .unreadable)
  else if name = "continue" then some (.decide .proceed)
  else if name = "wait" then some (.decide (.wait s))
  else if name = "delay" then some (.decide (.delay (.ofSecondsJson first)))
  else if name = "jump" then some (.decide (.jump s))
  else if name = "failure" then some (.decide (.failure (.plain s)))
  else if name = "failure_custom" then some (.decide (.failure (.custom s)))
  else if name = "gate" then some (.gate s)
  else if name = "await_cancel" then some .awaitCancellation
  else none

/-- The operation that a value is, read to a depth. -/
def ofJsonWithin : (depth : Nat) → Json → Operation
  | 0, j => .note (.literal j)
  | depth + 1, j =>
    let name := (j.item 0).asText
    if name = "if" then
      .branch (.ofJson (j.item 1)) ((j.item 2).asList.map (ofJsonWithin depth))
        ((j.item 3).asList.map (ofJsonWithin depth))
    else (ofName name (j.item 1) (j.item 2)).getD (.note (.literal j))

/-- The operation that a value is. -/
def ofJson (j : Json) : Operation := ofJsonWithin Document.depthLimit j

/-- The operations that the items of a list are. -/
def listOfJson (j : Json) : List Operation := j.asList.map ofJson

end Operation

namespace Blueprint

/-- The body of the named form. -/
def codeOfName (form : String) (ops : List Operation) : Blueprint :=
  if form = "outcome" then .code .outcome ops
  else if form = "run" then .code .waitingAction ops
  else if form = "new" then .code .waitingOutcome ops
  else .code .action ops

/-- The step that a value is, read to a depth. -/
def ofJsonWithin : (depth : Nat) → Json → Blueprint
  | 0, _ => .log "" none
  | depth + 1, j =>
    let name := j.textField "do"
    let workflow := (j.textField? "workflow").getD (j.textField "of")
    let input := (j.field? "input").map Expression.ofJson
    let wait := j.boolField "wait" true
    let test := Test.ofJson (j.fieldOrNull "when")
    let step : Blueprint :=
      if name = "log" then .log (j.textField "message") (j.textField? "sink")
      else if name = "delay" then .delay (.ofJson j)
      else if name = "jump" then
        if (j.field? "when").isSome then .jumpIf test (j.textField "then") (j.textField "else")
        else .jump (j.textField "to")
      else if name = "branch" then
        .branch test (j.boolField "try" false) (ofJsonWithin depth (j.fieldOrNull "then"))
          (match j.fieldOrNull "else" with
            | .null => none
            | other => some (ofJsonWithin depth other))
      else if name = "wait_event" then .waitForEvent (j.textField "event") (j.textField? "store_as")
      else if name = "sub" then
        .nested workflow input ((j.field? "instance").map Expression.ofJson) wait
      else if name = "cond_sub" then
        .nestedChoice test workflow (j.textField? "otherwise") input wait
      else
        let ops := Operation.listOfJson (j.fieldOrNull "ops")
        if name = "code" then codeOfName (j.textField "form") ops
        else .foreign ops (j.textField? "own_label")
    match j.textField? "label" with
    | some label => .named label step
    | none => step

/-- The step that a value is. -/
def ofJson (j : Json) : Blueprint := ofJsonWithin Document.depthLimit j

/-- The steps that the items of a list are. -/
def listOfJson (j : Json) : List Blueprint := j.asList.map ofJson

end Blueprint

end DurableFlow
