import DurableFlow.Script.Operation
import DurableFlow.Definition

/-!
# Blueprints of steps

A blueprint describes a step by the constructions of the library, with scripts in the place of
functions; `Blueprint.build` makes the step of it.
-/

namespace DurableFlow

/-- How a body is made into a step. -/
inductive BodyForm
  /-- It cannot wait, and an outcome only ends it. -/
  | action
  /-- It cannot wait, and decides on the outcome. -/
  | outcome
  /-- It can wait, and an outcome only ends it. -/
  | waitingAction
  /-- It can wait, and decides on the outcome. -/
  | waitingOutcome
  deriving DecidableEq, Repr

namespace BodyForm

/-- Whether a body of the form decides on the outcome. -/
def decides : BodyForm → Bool
  | outcome | waitingOutcome => true
  | action | waitingAction => false

/-- Whether a body of the form can wait. -/
def waits : BodyForm → Bool
  | waitingAction | waitingOutcome => true
  | action | outcome => false

/-- The outcome of a body. -/
def conclude (form : BodyForm) : BodyResult → Outcome
  | .error cause => .failure cause
  | .ok (some o) => if form.decides then o else .proceed
  | .ok none => .proceed

/-- The behaviour of a body. -/
def behave (form : BodyForm) (ops : List Operation) (c : Context) : Behaviour :=
  if form.waits then
    Operation.behaveAll true c (fun c r => .finish c (form.conclude r)) ops
  else
    let w := Operation.workAll c ops
    Work.toBehaviour ⟨w.emissions, w.context, w.result.map form.conclude⟩

end BodyForm

/-- The description of a step. -/
inductive Blueprint
  | log (message : String) (sink : Option String)
  | delay (duration : Duration)
  | jump (label : String)
  | jumpIf (test : Test) (yes no : String)
  /-- A choice between two steps; lenient, the test may have an error for an answer. -/
  | branch (test : Test) (lenient : Bool) (yes : Blueprint) (no : Option Blueprint)
  | waitForEvent (event : String) (key : Option String)
  | nested (workflow : String) (input inst : Option Expression) (wait : Bool)
  | nestedChoice (test : Test) (yes : String) (no : Option String) (input : Option Expression)
      (wait : Bool)
  | code (form : BodyForm) (ops : List Operation)
  | foreign (ops : List Operation) (label : Option String)
  | named (label : String) (step : Blueprint)

namespace Blueprint

/-- The predicate of a test. -/
def predicate (test : Test) (lenient : Bool) : Predicate :=
  if lenient then test.lenient else test.strict

mutual

/-- The step that a blueprint describes. -/
def build : Blueprint → Step
  | log message sink => Step.log message (sink.map .memory)
  | delay duration => Step.delay duration
  | jump label => Step.jump label
  | jumpIf test yes no => Step.jumpIf test.strict yes no
  | branch test lenient yes no => Step.branch (predicate test lenient) yes.build (buildOption no)
  | waitForEvent event key => Step.waitForEvent event key
  | nested workflow input inst wait =>
    Nested.step ⟨workflow, input.map Expression.select, inst.map Expression.selectText, wait⟩
  | nestedChoice test yes no input wait =>
    let choice : NestedChoice := { condition := test.strict, yes, input := input.map (·.select), wait }
    NestedChoice.step (match no with
      | some name => choice.otherwise name
      | none => choice)
  | code form ops => Step.code (form.behave ops)
  | foreign ops label => Step.foreign (BodyForm.waitingOutcome.behave ops) label
  | named label step => step.build.named label

/-- The step that a blueprint describes, if there is one. -/
def buildOption : Option Blueprint → Option Step
  | some b => some b.build
  | none => none

end

mutual

/-- The memory sinks that the log steps of a blueprint write to. -/
def sinks : Blueprint → List String
  | log _ (some sink) => [sink]
  | branch _ _ yes no => yes.sinks ++ sinksOption no
  | named _ step => step.sinks
  | _ => []

/-- The memory sinks of a blueprint, if there is one. -/
def sinksOption : Option Blueprint → List String
  | some b => b.sinks
  | none => []

end

/-- The definition of that name with the steps of the blueprints. -/
def define (name : String) (steps : List Blueprint) : Except WorkflowError Definition :=
  (steps.foldl (fun d b => d.step b.build) ({ name } : Draft)).build

/-- The workflow `hello`, which logs one line. -/
def hello : Except WorkflowError Definition := define "hello" [.log "hello" none]

end Blueprint

end DurableFlow
