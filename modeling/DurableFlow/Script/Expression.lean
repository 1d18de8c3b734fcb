import DurableFlow.Step

/-!
# Expressions and tests

A small language for values and questions that are asked of a context. An expression may panic; a
test may also have an error for an answer. Where an error cannot be passed on, it becomes a panic
with its text (`Test.strict`).
-/

namespace DurableFlow

/-- An expression over a context. -/
inductive Expression
  | literal (value : Json)
  | input
  | output
  | item (key : String)
  | inst
  | workflow
  /-- The payload of the delivered event. -/
  | payload
  | field (of : Expression) (key : String)
  | increment (of : Expression)
  | concat (parts : List Expression)
  | panic (text : String)

namespace Expression

/-- A text as it is, and any other value as compact text. -/
def textOf : Json → String
  | .text s => s
  | v => v.compact

/-- The next number after a whole number of 64 bits, after which the smallest one follows. -/
def incremented (v : Json) : Json :=
  Json.ofInt (((v.int64?).getD 0 + 1).bmod UInt64.size)

mutual

/-- The value of an expression. -/
def eval (c : Context) : Expression → Except Panic Json
  | literal v => .ok v
  | input => .ok c.input
  | output => .ok (c.output.getD .null)
  | item key => .ok ((c.item? key).getD .null)
  | inst => .ok (.text c.inst)
  | workflow => .ok (.text c.workflow)
  | payload => .ok ((c.event.map Event.payload).getD .null)
  | field of key => do return ((← of.eval c).field? key).getD .null
  | increment of => do return incremented (← of.eval c)
  | concat parts => do return .text (← evalTexts c parts)
  | panic text => .error (.text text)

/-- The texts of expressions, one after the other. -/
def evalTexts (c : Context) : List Expression → Except Panic String
  | [] => .ok ""
  | e :: rest => do
    let v ← e.eval c
    return textOf v ++ (← evalTexts c rest)

end

/-- The selector of a value. -/
def select (e : Expression) : Selector Json := fun c => e.eval c

/-- The selector of the text of a value. -/
def selectText (e : Expression) : Selector String := fun c => (e.eval c).map textOf

end Expression

/-- A question about a context. -/
inductive Test
  | const (b : Bool)
  | flag (key : String)
  | hasItem (key : String)
  | hasOutput
  | hasEvent (name : String)
  | equal (a b : Expression)
  | less (a b : Expression)
  | not (t : Test)
  | panic (text : String)
  | error (text : String)
  | custom (name : String)

namespace Test

/-- The value of an expression, as the answer of a test needs it. -/
def value (c : Context) (e : Expression) : Except Refusal Json := (e.eval c).mapError .panic

/-- The answer of a test. -/
def ask (c : Context) : Test → Except Refusal Bool
  | const b => .ok b
  | flag key => .ok (c.flag key)
  | hasItem key => .ok (c.item? key).isSome
  | hasOutput => .ok c.output.isSome
  | hasEvent name => .ok (c.event.any fun e => e.name == name)
  | equal a b => do return (← value c a).same (← value c b)
  | less a b => do
    let x ← value c a
    let y ← value c b
    return decide ((x.int64?).getD 0 < (y.int64?).getD 0)
  | not t => (t.ask c).map Bool.not
  | panic text => .error (.panic (.text text))
  | error text => .error (.error (.plain text))
  | custom name => .error (.error (.custom name))

/-- The predicate of a test, whose errors are passed on. -/
def lenient (t : Test) : Predicate := fun c => t.ask c

/-- The predicate of a test, whose errors are panics. -/
def strict (t : Test) : Predicate := fun c =>
  match t.ask c with
  | .error (.error cause) => .error (.panic (.text cause.message))
  | answer => answer

end Test

end DurableFlow
