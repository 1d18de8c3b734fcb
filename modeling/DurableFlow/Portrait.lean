import DurableFlow.Engine
import DurableFlow.Text.Quoted

/-!
# Portraits

Texts that show values to whoever looks for a mistake: the name of what it is, and its parts between
braces. Parts that have no text of their own are left out or shown as whether they are there.
-/

namespace DurableFlow

namespace Portrait

/-- A truth value. -/
def truth (b : Bool) : String := if b then "true" else "false"

/-- A value that may be missing. -/
def optional (s : Option String) : String :=
  match s with
  | some s => "Some(" ++ s ++ ")"
  | none => "None"

/-- Texts between commas. -/
def commas (parts : List String) : String := ", ".intercalate parts

/-- A list of texts. -/
def list (parts : List String) : String := "[" ++ commas parts ++ "]"

/-- The named parts of something; open, it has others that are not shown. -/
def record (name : String) (parts : List (String × String)) (isOpen : Bool := false) : String :=
  let shown := parts.map (fun p => p.1 ++ ": " ++ p.2) ++ if isOpen then [".."] else []
  name ++ " \x7b " ++ commas shown ++ " \x7d"

/-- A number with the digits behind the point that are not zeros at the end. -/
def decimals (whole fraction width : Nat) : String :=
  let digits := (Nat.toDigits 10 (Nat.pow 10 width + fraction)).drop 1
  let digits := (digits.reverse.dropWhile (· == '0')).reverse
  if digits.isEmpty then toString whole else toString whole ++ "." ++ String.ofList digits

/-- A duration in the largest unit that fits it. -/
def duration (d : Duration) : String :=
  if 0 < d.seconds then decimals d.seconds d.subsecNanos 9 ++ "s"
  else if 1000000 ≤ d.nanos then decimals (d.nanos / 1000000) (d.nanos % 1000000) 6 ++ "ms"
  else if 1000 ≤ d.nanos then decimals (d.nanos / 1000) (d.nanos % 1000) 3 ++ "µs"
  else toString d.nanos ++ "ns"

open Quoted (quote)

/-- An outcome. -/
def outcome : Outcome → String
  | .proceed => "Continue"
  | .failure cause => "Failure(" ++ quote cause.message ++ ")"
  | .wait message => record "Wait" [("message", quote message)]
  | .delay d => record "Delay" [("duration", duration d)]
  | .jump label => record "Jump" [("label", quote label)]

/-- A definition. -/
def definition (d : Definition) : String :=
  let labels := d.labels.map fun l => quote l.1 ++ ": " ++ toString l.2
  record "WorkflowDefinition"
    [("name", quote d.name), ("steps", toString d.size),
      ("labels", "\x7b" ++ commas labels ++ "\x7d")]

/-- Entries that a registry may be built from. -/
def entries (es : List Entry) : String :=
  record "RegistryBuilder" [("entries", list (es.map fun e => quote e.name))]

/-- A registry. -/
def registry (r : Registry) : String :=
  record "WorkflowRegistry" [("workflows", list (r.names.map quote))]

/-- A runner in an engine. -/
def runner (e : Engine) (r : Runner) : String :=
  let pending := (e.pending.filter fun key _ => key.1 == r.dispatcher).size
  record "WorkflowRunner"
    [("registry", registry r.registry),
      ("dispatcher", record "StepDispatcher" [("pending_delays", toString pending)])]

/-- A reference to a runner in an engine. -/
def handle (e : Engine) (id : RunnerId) : String :=
  record "RunnerHandle" [("alive", truth (e.isAlive id))]

/-- A notice. -/
def notice (n : Notice) : String :=
  let who := [("instance_id", quote n.inst), ("workflow", quote n.workflow)]
  match n.news with
  | .completed => record "Completed" who
  | .failed step cause =>
    record "Failed" (who ++ [("step_index", toString step), ("cause", quote cause.message)])
  | .waiting step message =>
    record "Waiting" (who ++ [("step_index", toString step), ("message", quote message)])
  | .delayed next due =>
    record "Delayed"
      (who ++ [("next_step", toString next), ("resume_at", (Timestamp.ofInstant due).text)])

/-- A set of services. -/
def services (s : Services) : String := record "Services" [("entries", toString s.size)]

/-- A subscription. -/
def subscription (isActive : Bool) : String := record "Subscription" [("active", truth isActive)]

/-- A completion, which is closed once nobody receives it. -/
def completion (isClosed : Bool) : String := record "Completion" [("closed", truth isClosed)]

/-- A request without an input and an event, which are left to the caller to show. -/
def request (q : Request) : String :=
  record "RunRequest"
    [("workflow", quote q.workflow), ("instance_id", optional (q.inst.map quote)),
      ("wait_for_result", truth q.wait), ("input", optional (q.input.map Json.compact)),
      ("init", truth q.init.isSome),
      ("event", optional (q.event.map fun e => quote e.name))]

/-- A step that logs. -/
def log (message : String) (hasSink : Bool) : String :=
  record "Log" [("message", quote message), ("sink", truth hasSink)]

/-- A step that delays. -/
def delay (d : Duration) : String := record "Delay" [("duration", duration d)]

/-- A step that jumps, to a second label if it has a condition. -/
def jump (isConditional : Bool) (yes no : String) : String :=
  record "Jump"
    [("conditional", truth isConditional), ("if_true", quote yes), ("if_false", quote no)]

/-- A step that chooses between two steps, or one and none. -/
def branch (hasOther : Bool) : String := record "Branch" [("otherwise", truth hasOther)] true

/-- A step with a body. -/
def code : String := record "Code" [] true

/-- A step that starts a nested run. -/
def nested (n : Nested) : String :=
  record "SubWorkflow"
    [("workflow", quote n.workflow), ("select_input", truth n.input.isSome),
      ("instance_id", truth n.inst.isSome), ("wait_for_result", truth n.wait)]

/-- A step that starts one of two nested runs. -/
def nestedChoice (n : NestedChoice) : String :=
  record "ConditionalSubWorkflow"
    [("when_true", quote n.yes), ("when_false", optional (n.no.map quote)),
      ("select_input", truth n.input.isSome), ("wait_for_result", truth n.wait)]

end Portrait

end DurableFlow
