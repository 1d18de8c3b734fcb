import DurableFlow.Chain
import DurableFlow.Registry
import DurableFlow.Store

/-!
# The engine

The state of an engine: the store, the scheduler, the tables of delays and promises, the runners,
and the tasks. A task is a stack of frames, the innermost first; every frame above another one
belongs to a nested run that a step of the lower one waits for, and all of them share the token of
the task. What happens is entered into a journal.
-/

namespace DurableFlow

/-- Who is told when a chain stops. -/
inductive Origin
  /-- A call of a runner, and the completion that it waits for, if it waits. -/
  | call (runner : RunnerId) (receiver : Option CompletionId)
  /-- A call without a runner. -/
  | direct
  /-- Nobody: the chain goes on after a delay. -/
  | continuation

/-- How far a chain is at its present step. -/
inductive Stage
  /-- About to execute the step at the index, or to end behind the last one. -/
  | entering (index : Nat)
  /-- Within the step. -/
  | inside (index : Nat) (rest : Behaviour)
  /-- Within the step, which waits for a nested run. -/
  | calling (index : Nat) (next : Reply → Behaviour)
  /-- The step has ended, and this is still to be done. -/
  | acting (plan : Plan)
  /-- Stopped by a fault. -/
  | halting (fault : Fault)

namespace Stage

/-- Whether a step is being executed. -/
def isInside : Stage → Bool
  | inside _ _ | calling _ _ => true
  | _ => false

end Stage

/-- What a task has to do. -/
inductive Frame
  /-- To find the definition and the position of an instance; resuming, there has to be one. -/
  | opening (runner : RunnerId) (request : Request) (resuming : Bool)
  | driving (origin : Origin) (chain : Chain) (stage : Stage)
  /-- To wait for a completion, as the last part of a call. -/
  | receiving (runner : RunnerId) (completion : CompletionId)
  /-- To wait for a completion, whatever comes of it. -/
  | listening (completion : CompletionId)

namespace Frame

/-- The runner that a frame keeps alive. -/
def runner? : Frame → Option RunnerId
  | opening runner _ _ => some runner
  | driving (.call runner _) _ _ => some runner
  | receiving runner _ => some runner
  | _ => none

/-- The completion that a frame has promised and not yet kept. -/
def owed? : Frame → Option CompletionId
  | driving _ chain _ => chain.completion
  | _ => none

end Frame

/-- A stack of frames, the innermost first, under one token. -/
structure Task where
  number : Nat
  token : Token
  /-- Whether the task waits, and has to be looked at again from the outside in. -/
  parked : Bool := false
  frames : List Frame

/-- The task with another stack of frames. -/
def Task.doing (t : Task) (frames : List Frame) : Task := { t with frames }

/-- How a task ended. -/
inductive Ending
  | returned (settlement : Settlement)
  | panicked (payload : Panic)
  /-- A listener was told, or the promise was broken. -/
  | heard (settlement : Option Settlement)

/-- What happens in an engine. -/
inductive Occurrence
  /-- A position was asked for and told. -/
  | loaded (inst : String) (position : Option Nat)
  /-- The store was made to fail. -/
  | loadFailed (inst : String)
  /-- The store failed by itself. -/
  | unreadable (inst : String)
  | saving (inst : String) (next : Nat)
  | saveFailed (inst : String) (next : Nat)
  | published (now : Instant) (notice : Notice)
  | refused (now : Instant) (notice : Notice)
  | scheduled (now due : Instant) (error : Option SchedulerError)
  | emitted (emission : Emission)
  /-- A step starts to execute. -/
  | executed (inst : String) (index : Nat) (context : Context)
  /-- A panic tears a chain down that goes on after a delay. -/
  | tornDown (inst : String) (payload : Panic)

/-- What starts and continues instances. -/
structure Runner where
  registry : Registry
  services : Services
  dispatcher : DispatcherId

/-- The state of an engine. -/
structure Engine where
  store : Store := {}
  /-- Whether the bus refuses a notice, by the number of notices before it and its topic. -/
  refuses : (before : Nat) → Topic → Bool := fun _ _ => false
  /-- How many notices the bus was given. -/
  notices : Nat := 0
  scheduler : Scheduler
  cancelled : List Token := []
  /-- The gates that have been opened. -/
  gates : List String := []
  runners : Table RunnerId Runner := .empty
  /-- The runners that are kept alive from outside. -/
  held : List RunnerId := []
  pending : Table (DispatcherId × String) PendingDelay := .empty
  /-- The promises that have been kept. -/
  settled : Table CompletionId Settlement := .empty
  tasks : List Task := []
  endings : List (Nat × Ending) := []
  journal : List Occurrence := []
  /-- The identities that are made up, in their order. -/
  identity : Nat → String
  /-- How many identities have been made up. -/
  identities : Nat := 0
  /-- The next number for whatever needs one of its own. -/
  next : Nat := 0

namespace Engine

/-- The present time. -/
def now (e : Engine) : Instant := e.scheduler.timers.now

/-- Enters something into the journal. -/
def record (e : Engine) (x : Occurrence) : Engine := { e with journal := e.journal ++ [x] }

/-- Whether a token is cancelled. -/
def isCancelled (e : Engine) (t : Token) : Bool := t.isCancelled e.cancelled

/-- Cancels a token, and with it all that descend from it. -/
def cancel (e : Engine) (t : Token) : Engine := { e with cancelled := t :: e.cancelled }

/-- A number that is used for nothing else. -/
def fresh (e : Engine) : Nat × Engine := (e.next, { e with next := e.next + 1 })

/-- Whether somebody may still keep a promise. -/
def isOwed (e : Engine) (c : CompletionId) : Bool :=
  e.tasks.any (fun t => t.frames.any fun f => f.owed? == some c)
    || e.scheduler.continuations.any fun k => k.chain.completion == some c

/-- Whether a runner is still there: held from outside, or at work. -/
def isAlive (e : Engine) (r : RunnerId) : Bool :=
  e.held.contains r || e.tasks.any fun t => t.frames.any fun f => f.runner? == some r

/-- Whether a body that waits for a signal can go on. -/
def isSignalled (e : Engine) (token : Token) : Signal → Bool
  | .gate name => e.gates.contains name
  | .cancellation => e.isCancelled token

/-- Starts a task. -/
def spawn (e : Engine) (token : Token) (frames : List Frame) : Nat × Engine :=
  (e.next, { e with
    next := e.next + 1
    tasks := e.tasks ++ [{ number := e.next, token, frames }] })

/-- The task of that number. -/
def task? (e : Engine) (number : Nat) : Option Task := e.tasks.find? fun t => t.number == number

/-- A token that descends from none. -/
def newToken (e : Engine) : Token × Engine := (.root e.next, { e with next := e.next + 1 })

/-- Whether an instance has a pending delay. -/
def hasPending (e : Engine) (d : DispatcherId) (inst : String) : Bool := e.pending.contains (d, inst)

/-- Cancels the pending delay of an instance, if it has one. -/
def cancelDelay (e : Engine) (d : DispatcherId) (inst : String) : Option Engine :=
  (e.pending.get? (d, inst)).map fun p =>
    { e with pending := e.pending.erase (d, inst) }.cancel p.token

end Engine

end DurableFlow
