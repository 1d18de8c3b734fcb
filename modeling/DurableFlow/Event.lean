import DurableFlow.Error
import DurableFlow.Json.Value
import DurableFlow.Time.Instant

/-!
# Events and notices

An event is delivered to an instance from outside, a notice is published about an instance.
-/

namespace DurableFlow

/-- What is delivered to an instance that waits for it. -/
structure Event where
  name : String
  payload : Json := .null

/-- The four things that are published. -/
inductive Topic
  | completed
  | failed
  | waiting
  | delayed
  deriving DecidableEq, Repr

/-- What has become of an instance. -/
inductive News
  | completed
  | failed (step : Nat) (cause : Cause)
  | waiting (step : Nat) (message : String)
  | delayed (next : Nat) (due : Instant)
  deriving DecidableEq

/-- The topic that news belongs to. -/
def News.topic : News → Topic
  | completed => .completed
  | failed _ _ => .failed
  | waiting _ _ => .waiting
  | delayed _ _ => .delayed

/-- News of one instance of a workflow. -/
structure Notice where
  inst : String
  workflow : String
  news : News
  deriving DecidableEq

/-- The topic of a notice. -/
def Notice.topic (n : Notice) : Topic := n.news.topic

end DurableFlow
