import DurableFlow.Behaviour
import DurableFlow.Text

/-!
# Steps

A step is a label, if it carries one, and a behaviour for every context. Here are the steps that
the library offers. What a user supplies to them (predicates, selectors, bodies) may panic; every
step but `Step.foreign` turns that into a failure.
-/

namespace DurableFlow

/-- A step of a workflow. -/
structure Step where
  label : Option String := none
  execute : Context → Behaviour

/-- Why a predicate has no answer. -/
inductive Refusal
  | error (cause : Cause)
  | panic (payload : Panic)
  deriving DecidableEq, Repr

/-- The failure that a refusal becomes. -/
def Refusal.cause : Refusal → Cause
  | error c => c
  | panic p => .panicked p

/-- A question about a context. -/
abbrev Predicate := Context → Except Refusal Bool

/-- A value chosen from a context. -/
abbrev Selector (α : Type) := Context → Except Panic α

namespace Step

/-- A step that decides at once and leaves the context as it is. -/
def deciding (decide : Context → Outcome) : Step where
  execute c := .finish c (decide c)

/-- The step under a label, in place of one that it carries. -/
def named (name : String) (s : Step) : Step := { s with label := some name }

/-- Writes a line to its own sink, else to the sink among the services. -/
def log (message : String) (sink : Option Sink := none) : Step where
  execute c :=
    match sink <|> c.services.get? .sink with
    | some sink => .emit (.line sink c.inst message) (.finish c .proceed)
    | none => .finish c .proceed

/-- Lets a while pass. -/
def delay (d : Duration) : Step := deciding fun _ => .delay d

/-- Jumps to a label. -/
def jump (label : String) : Step := deciding fun _ => .jump label

/-- Jumps to one of two labels. -/
def jumpIf (condition : Predicate) (yes no : String) : Step :=
  deciding fun c =>
    match condition c with
    | .ok b => .jump (if b then yes else no)
    | .error r => .failure r.cause

/-- Takes the event of that name and keeps its payload as an item; parks if there is none. -/
def waitForEvent (event : String) (key : Option String := none) : Step where
  execute c :=
    match c.takeEvent event with
    | some (payload, c) => .finish (c.setItem (key.getD event) payload) .proceed
    | none => .finish c (.wait ("waiting for event " ++ ticked event))

/-- Executes one of two steps, contained; without the second one goes on. -/
def branch (condition : Predicate) (yes : Step) (no : Option Step := none) : Step where
  execute c :=
    match condition c, no with
    | .ok true, _ => (yes.execute c).guarded
    | .ok false, some no => (no.execute c).guarded
    | .ok false, none => .finish c .proceed
    | .error r, _ => .finish c (.failure r.cause)

/-- Runs a body, contained. -/
def code (body : Context → Behaviour) : Step where
  execute c := (body c).guarded

/-- Runs a body as it is. -/
def foreign (body : Context → Behaviour) (label : Option String := none) : Step := ⟨label, body⟩

end Step

/-! ## Nested runs -/

/-- A step that starts an instance of another workflow. -/
structure Nested where
  workflow : String
  /-- The input of the nested instance, where it is not that of the parent. -/
  input : Option (Selector Json) := none
  /-- The identity of the nested instance; only with one is the parent's event passed on. -/
  inst : Option (Selector String) := none
  wait : Bool := true

namespace Nested

/-- The request for a nested run, or the panic of a selector. -/
def request (n : Nested) (c : Context) : Except Panic Request := do
  let input ← match n.input with
    | some select => select c
    | none => .ok c.input
  let base : Request :=
    { workflow := n.workflow, wait := n.wait, input := some input, services := some c.services }
  match n.inst with
  | some select => return { base with inst := some (← select c), event := c.event }
  | none => return base

/-- What the parent makes of the end of a nested run. -/
def conclude (n : Nested) (c : Context) : Reply → Behaviour
  | .panicked p => .panic c p
  | .settled (.error e) => .finish c (.failure e.cause)
  | .settled (.ok r) =>
    if !n.wait then .finish c .proceed
    else if r.status = .waiting then
      .finish c (.wait ("sub-workflow " ++ ticked n.workflow ++ " instance " ++ ticked r.inst
        ++ " is waiting"))
    else
      .finish (match r.output with
        | some v => c.setOutput v
        | none => c) .proceed

/-- Looks for a runner, makes up the request and launches it. -/
def start (n : Nested) (c : Context) : Behaviour :=
  match c.services.get? .runner with
  | none => missing
  | some runner => .locate runner fun alive =>
    if alive then
      match n.request c with
      | .ok q => .launch c runner q (n.conclude c)
      | .error p => .finish c (.failure (.panicked p))
    else missing
where
  /-- The failure without a runner. -/
  missing : Behaviour :=
    .finish c (.failure (.plain ("no workflow runner available to start " ++ ticked n.workflow)))

/-- The step that does it. -/
def step (n : Nested) : Step where
  execute := n.start

end Nested

/-- A step that starts an instance of one of two workflows. -/
structure NestedChoice where
  condition : Predicate
  yes : String
  no : Option String := none
  input : Option (Selector Json) := none
  wait : Bool := true

namespace NestedChoice

/-- Names the second workflow; a blank name takes the second choice away. -/
def otherwise (n : NestedChoice) (name : String) : NestedChoice :=
  { n with no := if isBlank name then none else some name }

/-- The nested run of a chosen workflow. -/
def nested (n : NestedChoice) (workflow : String) : Nested :=
  { workflow, input := n.input, wait := n.wait }

/-- The step that does it; without a second workflow it goes on. -/
def step (n : NestedChoice) : Step where
  execute c :=
    match n.condition c, n.no with
    | .error r, _ => .finish c (.failure r.cause)
    | .ok true, _ => (n.nested n.yes).start c
    | .ok false, some no => (n.nested no).start c
    | .ok false, none => .finish c .proceed

end NestedChoice

end DurableFlow
