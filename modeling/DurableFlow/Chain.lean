import DurableFlow.Plan
import DurableFlow.Timers

/-!
# Chains

A chain takes one instance through its definition. It travels with what it still owes: the
completion by which a waiting caller is told how the instance ended. While a delay passes, the
chain rests in a continuation.
-/

namespace DurableFlow

/-- The promise to tell a caller how an instance ended. -/
structure CompletionId where
  number : Nat
  deriving DecidableEq, Repr

/-- Whose table of pending delays a chain is entered in. -/
structure DispatcherId where
  number : Nat
  deriving DecidableEq, Repr

/-- An instance on its way. -/
structure Chain where
  definition : Definition
  context : Context
  dispatcher : DispatcherId
  completion : Option CompletionId := none
  /-- The number under which the chain was started, and by which it is told from others. -/
  number : Nat := 0

namespace Chain

/-- The identity of the instance. -/
def inst (c : Chain) : String := c.context.inst

/-- News about the instance, as it is published. -/
def notice (c : Chain) (news : News) : Notice := ⟨c.inst, c.definition.name, news⟩

end Chain

/-- A chain that goes on at a step after a delay of that number. -/
structure Continuation where
  chain : Chain
  next : Nat
  delay : Nat

/-- A delay that is pending: its number and the token that cancels it. -/
structure PendingDelay where
  number : Nat
  token : Token

/-- Who makes a scheduled continuation run. -/
inductive SchedulerMode
  /-- The holder of the engine picks one by hand. -/
  | manual
  /-- The clock. -/
  | clocked
  /-- Nobody: there is nothing that could run it. -/
  | absent
  deriving DecidableEq, Repr

/-- What arms continuations. -/
structure Scheduler where
  mode : SchedulerMode := .manual
  /-- Whether there is nothing to run a continuation at the next call, by the numbers of the calls
  and of the accepted calls so far. -/
  refuses : (calls accepted : Nat) → Bool := fun _ _ => false
  calls : Nat := 0
  accepted : Nat := 0
  timers : Timers Continuation

namespace Scheduler

/-- Arms a continuation, unless its token is cancelled or nothing could run it. -/
def schedule (s : Scheduler) (cancelled : List Token) (due : Instant) (token : Token)
    (k : Continuation) : Scheduler × Except SchedulerError Unit :=
  let called := { s with calls := s.calls + 1 }
  let taken := { called with accepted := s.accepted + 1 }
  if s.refuses s.calls s.accepted then (called, .error .noRuntime)
  else if token.isCancelled cancelled then (called, .error .cancelled)
  else
    match s.mode with
    | .absent => (called, .error .noRuntime)
    | .clocked => ({ taken with timers := s.timers.arm due token k }, .ok ())
    | .manual =>
      let armed := s.timers.armed ++ [⟨s.timers.deadline due, token, k⟩]
      ({ taken with timers := { s.timers with armed } }, .ok ())

/-- The continuations that are armed, in the order in which they are dropped. -/
def continuations (s : Scheduler) : List Continuation := s.timers.armed.map Timer.work

end Scheduler

end DurableFlow
