/-!
# Errors

Errors are causes: what went wrong, with the names that it concerns. The wording is in one function
per type (`WorkflowError.message`, …, `RunError.message`). A step fails with a `Cause`; a run ends
with a `RunError`, which is either the cause of a failed step, unchanged, or a `Fault` of the engine.
-/

namespace DurableFlow

/-- What is wrong with a definition, or with data that a step reads or writes. -/
inductive WorkflowError
  | emptyName
  | emptyLabel (workflow : String)
  | duplicateLabel (workflow label : String) (first second : Nat)
  | decode (slot inst : String)
  | encode (inst : String)
  deriving DecidableEq, Repr

/-- What is wrong with a store. -/
inductive StoreError
  | corrupt (inst detail : String)
  | database
  | migrate
  deriving DecidableEq, Repr

/-- Why a continuation was not armed. -/
inductive SchedulerError
  | noRuntime
  | cancelled
  deriving DecidableEq, Repr

/-- What the engine itself reports. -/
inductive Fault
  | workflowNotFound (name : String)
  | instanceNotFound (inst : String)
  | unknownLabel (workflow label : String)
  | duplicateWorkflow (name : String)
  | nameMismatch (registered defined : String)
  | definition (error : WorkflowError)
  | store (error : StoreError)
  | scheduler (error : SchedulerError)
  | busClosed
  | cancelled
  deriving DecidableEq, Repr

/-- Why a step failed. -/
inductive Cause
  | workflow (error : WorkflowError)
  | engine (fault : Fault)
  | custom (name : String)
  | plain (text : String)
  deriving DecidableEq, Repr

/-- Why a run has no result. -/
inductive RunError
  | stepFailed (cause : Cause)
  | fault (fault : Fault)
  deriving DecidableEq, Repr

/-- What a body that gives up leaves behind: a text, or something that is not text. -/
inductive Panic
  | text (s : String)
  | unreadable
  deriving DecidableEq, Repr

/-! ## Wording -/

/-- A text between apostrophes. -/
def ticked (s : String) : String := "'" ++ s ++ "'"

def WorkflowError.message : WorkflowError → String
  | emptyName => "workflow name must not be empty"
  | emptyLabel w => "label must not be empty in workflow " ++ ticked w
  | duplicateLabel w l a b =>
    "duplicate label " ++ ticked l ++ " in workflow " ++ ticked w
      ++ " (steps " ++ toString a ++ " and " ++ toString b ++ ")"
  | decode slot i => "failed to decode " ++ slot ++ " for instance " ++ ticked i
  | encode i => "failed to encode output for instance " ++ ticked i

def StoreError.message : StoreError → String
  | corrupt i detail => "corrupt state for instance " ++ ticked i ++ ": " ++ detail
  | database => "database error"
  | migrate => "migration error"

def SchedulerError.message : SchedulerError → String
  | noRuntime => "no async runtime available to schedule on"
  | cancelled => "scheduling cancelled"

namespace Fault

def message : Fault → String
  | workflowNotFound n => "workflow " ++ ticked n ++ " not found"
  | instanceNotFound i => "instance " ++ ticked i ++ " not found"
  | unknownLabel w l => "unknown jump label " ++ ticked l ++ " in workflow " ++ ticked w
  | duplicateWorkflow n => "duplicate workflow name " ++ ticked n
  | nameMismatch r d => "workflow registered as " ++ ticked r ++ " defines " ++ ticked d
  | definition e => "invalid workflow definition: " ++ e.message
  | store e => "store error: " ++ e.message
  | scheduler e => "scheduler error: " ++ e.message
  | busClosed => "event bus error: event bus closed"
  | cancelled => "execution cancelled"

/-- Whether the fault lies in what was registered or asked for, and not in the course of a run. -/
def isConfiguration : Fault → Bool
  | workflowNotFound _ | unknownLabel _ _ | duplicateWorkflow _ | nameMismatch _ _
  | definition _ => true
  | _ => false

end Fault

/-- The text of a panic. -/
def Panic.message : Panic → String
  | text s => s
  | unreadable => "unknown panic payload"

namespace Cause

def message : Cause → String
  | workflow e => e.message
  | engine f => f.message
  | custom name => "custom error " ++ name
  | plain s => s

/-- The failure that a contained panic becomes. -/
def panicked (p : Panic) : Cause := .plain ("step panicked: " ++ p.message)

end Cause

/-- The failure that an error of a nested run becomes: the cause of its failed step as it is. -/
def RunError.cause : RunError → Cause
  | stepFailed c => c
  | fault f => .engine f

def RunError.message (e : RunError) : String := e.cause.message

/-- Whether the error lies in what was registered or asked for. -/
def RunError.isConfiguration : RunError → Bool
  | stepFailed _ => false
  | fault f => f.isConfiguration

end DurableFlow
