import DurableFlow.Script.Expression

/-!
# Operations on a context

The bodies of steps are lists of operations. An operation tells something about the context or
changes it; it may write, fail, panic or decide on the outcome of the body, and then what follows it
is left out. A body that can wait (`Operation.behaveAll`) may also wait for a gate or for the
cancellation of its token; one that cannot (`Operation.workAll`) passes over both.
-/

namespace DurableFlow

/-- What an operation tells. -/
inductive Answer
  | nothing
  | value (v : Json)
  | optional (v : Option Json)
  | event (e : Option Event)
  | items (fields : List (String × Json))

/-- An operation. -/
inductive Operation
  | tellInst
  | tellWorkflow
  | tellInput
  | tellOutput
  | tellItem (key : String)
  | tellItems
  | tellFlag (key : String)
  | tellEvent
  | setInput (e : Expression)
  | setOutput (e : Expression)
  /-- Sets the output to something that cannot be written as a value. -/
  | setUnwritable
  | takeOutput
  | setItem (key : String) (e : Expression)
  | removeItem (key : String)
  | deliver (name : String) (value : Expression)
  | take (name : String)
  | inputAs (shape : Shape)
  | outputAs (shape : Shape)
  | note (e : Expression)
  | snapshot
  /-- Cancels the token that the step was given. -/
  | cancel
  | branch (test : Test) (yes no : List Operation)
  | fail (cause : Cause)
  | panic (payload : Panic)
  | decide (outcome : Outcome)
  /-- Waits until the gate of that name is open for the instance. -/
  | gate (name : String)
  | awaitCancellation

/-- What an operation comes to. -/
inductive Yield
  | goes (answer : Answer)
  | fails (cause : Cause)
  | decides (outcome : Outcome)

/-- What a body comes to: an error, or the outcome that it decided on, if it did. -/
abbrev BodyResult := Except Cause (Option Outcome)

namespace Operation

/-- The work of doing nothing but to come to something. -/
def only (c : Context) (y : Yield) : Work Yield := ⟨[], c, .ok y⟩

/-- The work of a change, once the value for it is known. -/
def changing (c : Context) (e : Expression) (change : Json → Context) : Work Yield :=
  match e.eval c with
  | .ok v => only (change v) (.goes .nothing)
  | .error p => ⟨[], c, .error p⟩

/-- What telling a decoded value comes to. -/
def telling {α : Type} (answer : α → Answer) : Except WorkflowError α → Yield
  | .ok v => .goes (answer v)
  | .error e => .fails (.workflow e)

/-- What a result makes of the operation that it is the body of. -/
def ofBody : BodyResult → Yield
  | .ok none => .goes .nothing
  | .ok (some o) => .decides o
  | .error cause => .fails cause

mutual

/-- The work of an operation. -/
def work (c : Context) : Operation → Work Yield
  | tellInst => only c (.goes (.value (.text c.inst)))
  | tellWorkflow => only c (.goes (.value (.text c.workflow)))
  | tellInput => only c (.goes (.value c.input))
  | tellOutput => only c (.goes (.optional c.output))
  | tellItem key => only c (.goes (.optional (c.item? key)))
  | tellItems => only c (.goes (.items c.items.rows))
  | tellFlag key => only c (.goes (.value (.bool (c.flag key))))
  | tellEvent => only c (.goes (.event c.event))
  | setInput e => changing c e c.setInput
  | setOutput e => changing c e c.setOutput
  | setUnwritable => only c (.fails (.workflow (.encode c.inst)))
  | takeOutput => only c.takeOutput (.goes (.optional c.output))
  | setItem key e => changing c e (c.setItem key)
  | removeItem key => only (c.removeItem key) (.goes (.optional (c.item? key)))
  | deliver name value => changing c value fun v => c.deliver ⟨name, v⟩
  | take name =>
    match c.takeEvent name with
    | some (payload, c) => only c (.goes (.event (some ⟨name, payload⟩)))
    | none => only c (.goes (.event none))
  | inputAs shape => only c (telling .value (c.inputAs shape))
  | outputAs shape => only c (telling .optional (c.outputAs shape))
  | note e =>
    match e.eval c with
    | .ok v => ⟨[.note v], c, .ok (.goes .nothing)⟩
    | .error p => ⟨[], c, .error p⟩
  | snapshot => ⟨[.snapshot c], c, .ok (.goes .nothing)⟩
  | cancel | gate _ | awaitCancellation => only c (.goes .nothing)
  | branch test yes no =>
    match test.ask c with
    | .error (.error cause) => only c (.fails cause)
    | .error (.panic p) => ⟨[], c, .error p⟩
    | .ok b =>
      let w := if b then workAll c yes else workAll c no
      ⟨w.emissions, w.context, w.result.map ofBody⟩
  | fail cause => only c (.fails cause)
  | panic p => ⟨[], c, .error p⟩
  | decide o => only c (.decides o)

/-- The work of a body, which ends where an operation does not go on. -/
def workAll (c : Context) : List Operation → Work BodyResult
  | [] => ⟨[], c, .ok (.ok none)⟩
  | op :: rest =>
    let w := work c op
    match w.result with
    | .error p => ⟨w.emissions, w.context, .error p⟩
    | .ok (.fails cause) => ⟨w.emissions, w.context, .ok (.error cause)⟩
    | .ok (.decides o) => ⟨w.emissions, w.context, .ok (.ok (some o))⟩
    | .ok (.goes _) =>
      let w' := workAll w.context rest
      ⟨w.emissions ++ w'.emissions, w'.context, w'.result⟩

end

mutual

/-- The behaviour of an operation in a body that can wait, which goes on as `next` says. Only an
operation at the top of the body waits. -/
def behave (top : Bool) (c : Context) (next : Context → Yield → Behaviour) : Operation → Behaviour
  | gate name =>
    if top then .await c (.gate (name ++ "@" ++ c.inst)) (next c (.goes .nothing))
    else next c (.goes .nothing)
  | awaitCancellation =>
    if top then .await c .cancellation (next c (.goes .nothing)) else next c (.goes .nothing)
  | cancel => .cancel (next c (.goes .nothing))
  | branch test yes no =>
    match test.ask c with
    | .error (.error cause) => next c (.fails cause)
    | .error (.panic p) => .panic c p
    | .ok true => behaveAll false c (fun c r => next c (ofBody r)) yes
    | .ok false => behaveAll false c (fun c r => next c (ofBody r)) no
  | op =>
    let w := work c op
    .emitAll w.emissions <|
      match w.result with
      | .error p => .panic w.context p
      | .ok y => next w.context y

/-- The behaviour of a body that can wait, which ends as `finish` says. -/
def behaveAll (top : Bool) (c : Context) (finish : Context → BodyResult → Behaviour) :
    List Operation → Behaviour
  | [] => finish c (.ok none)
  | op :: rest =>
    behave top c (fun c y =>
      match y with
      | .goes _ => behaveAll top c finish rest
      | .fails cause => finish c (.error cause)
      | .decides o => finish c (.ok (some o))) op

end

end Operation

end DurableFlow
