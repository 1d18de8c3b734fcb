import DurableFlow.Error
import DurableFlow.Time.Instant

/-!
# Outcomes

What a step tells the engine to do next.
-/

namespace DurableFlow

/-- The outcome of a step. -/
inductive Outcome
  /-- Go on with the next step. -/
  | proceed
  | failure (cause : Cause)
  /-- Park until an event is delivered. -/
  | wait (message : String)
  /-- Go on with the next step after a while. -/
  | delay (duration : Duration)
  /-- Go on with the step that carries the label. -/
  | jump (label : String)
  deriving DecidableEq

namespace Outcome

/-- Whether the outcome is a failure. -/
def isFailure : Outcome → Bool
  | failure _ => true
  | _ => false

/-- The outcome of a body that returned nothing, or an error. -/
def ofResult {α : Type} : Except Cause α → Outcome
  | .ok _ => .proceed
  | .error c => .failure c

end Outcome

end DurableFlow
