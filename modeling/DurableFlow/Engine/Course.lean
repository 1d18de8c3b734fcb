import DurableFlow.Engine.Moves

/-!
# The course of an engine

Tasks are taken on in turn: each until it is parked or over, then the tasks that can move because of
it join the end of the queue. Once nothing moves, the continuations whose tokens are cancelled are
dropped, which may break promises, and the clock may move on. The fuel bounds the number of moves;
an engine whose steps come to an end needs less than any fuel that is large enough.
-/

namespace DurableFlow.Engine

/-- Puts a task in the place of the one of its number. -/
def putTask (e : Engine) (t : Task) : Engine :=
  { e with tasks := e.tasks.map fun t' => if t'.number == t.number then t else t' }

/-- Removes a task that is over, and keeps how it ended. -/
def endTask (e : Engine) (number : Nat) (ending : Ending) : Engine :=
  { e with
    tasks := e.tasks.filter fun t => t.number != number
    endings := e.endings ++ [(number, ending)] }

/-- Takes the task of that number on by one move. -/
def advance (e : Engine) (number : Nat) : Option Engine :=
  match e.task? number with
  | none => none
  | some t =>
    match e.move t with
    | .blocked => none
    | .on e t => some (e.putTask t)
    | .over e ending => some (e.endTask number ending)

/-- The queue with the tasks behind it that can move and are not in it. -/
def enqueue (e : Engine) (queue : List Nat) : List Nat :=
  queue ++ (e.tasks.filter fun t => e.canMove t && !queue.contains t.number).map Task.number

/-- Whether a task is parked. -/
def isParked (e : Engine) (number : Nat) : Bool := (e.task? number).any Task.parked

/-- Takes the tasks of a queue on until nothing moves. -/
def run : (fuel : Nat) → (queue : List Nat) → Engine → Engine
  | 0, _, e => e
  | _, [], e => e
  | fuel + 1, number :: queue, e =>
    match e.advance number with
    | none => run fuel (e.enqueue queue) e
    | some e =>
      if e.isParked number then run fuel (e.enqueue queue) e else run fuel (number :: queue) e

/-- Drops the continuations whose tokens are cancelled, in their order, and tells who can move. -/
def dropCancelled (e : Engine) : Engine × List Nat :=
  e.scheduler.timers.armed.foldl
    (fun (e, queue) timer =>
      if e.isCancelled timer.token then
        let timers := e.scheduler.timers
        let armed := timers.armed.filter fun other => other.work.delay != timer.work.delay
        let e := { e with scheduler := { e.scheduler with timers := { timers with armed } } }
        (e, e.enqueue queue)
      else (e, queue))
    (e, [])

/-- Takes all tasks on, and drops what is cancelled, until neither changes anything. -/
def quiesce (fuel : Nat) : (rounds : Nat) → Engine → Engine
  | 0, e => e
  | rounds + 1, e =>
    let e := run fuel (e.enqueue []) e
    let (e, queue) := e.dropCancelled
    if queue.isEmpty then e else quiesce fuel rounds (run fuel queue e)

/-- How many moves are made at most before an engine is looked at again. -/
def patience : Nat := 1000000

/-- Everything that can move moves until nothing can. -/
def settleAll (e : Engine) : Engine := quiesce patience patience e

/-- Lets the clock pass every deadline up to `limit`, and everything move after each. -/
def passUntil (limit : Nat) : (fuel : Nat) → Engine → Engine
  | 0, e => e
  | fuel + 1, e =>
    if e.scheduler.mode = .clocked then
      match e.scheduler.timers.pop? limit with
      | some (timer, timers) =>
        let e := { e with scheduler := { e.scheduler with timers } }
        passUntil limit fuel (e.resumeContinuation timer.token timer.work).settleAll
      | none => e
    else e

/-- Moves the clock on by some milliseconds. -/
def elapse (e : Engine) (millis : Nat) : Engine :=
  let limit := e.scheduler.timers.clock + millis
  let e := passUntil limit patience e
  { e with scheduler := { e.scheduler with timers := e.scheduler.timers.moveTo limit } }

/-! ## What the holder of an engine does -/

/-- Starts a run of a workflow, and tells the number of its task. -/
def startRun (e : Engine) (runner : RunnerId) (token : Token) (q : Request) : Nat × Engine :=
  e.spawn token [.opening runner q false]

/-- Starts to resume an instance with an event. -/
def startResume (e : Engine) (runner : RunnerId) (token : Token) (workflow inst : String)
    (event : Event) : Nat × Engine :=
  e.spawn token [.opening runner { workflow, inst := some inst, event := some event } true]

/-- Starts a chain without a runner. -/
def startDispatch (e : Engine) (token : Token) (chain : Chain) (start : Nat) : Nat × Engine :=
  e.spawn token [.driving .direct chain (.entering start)]

/-- Starts to listen for a completion. -/
def startListening (e : Engine) (token : Token) (c : CompletionId) : Nat × Engine :=
  e.spawn token [.listening c]

/-- Runs the continuation at a place among those that are armed by hand. -/
def fire (e : Engine) (n : Nat) : Option Engine :=
  if e.scheduler.mode = .manual then
    let timers := e.scheduler.timers
    match timers.armed[n]? with
    | some timer =>
      let timers := { timers with armed := timers.armed.eraseIdx n }
      some ({ e with scheduler := { e.scheduler with timers } }.resumeContinuation
        timer.token timer.work)
    | none => none
  else none

/-- Drops all continuations that are armed, in their order, and tells who can move. -/
def dropArmed (e : Engine) : Engine × List Nat :=
  e.scheduler.timers.armed.foldl
    (fun (e, queue) _ =>
      let timers := e.scheduler.timers
      let timers := { timers with armed := timers.armed.drop 1 }
      let e := { e with scheduler := { e.scheduler with timers } }
      (e, e.enqueue queue))
    (e, [])

/-- Makes a runner over a registry, held from outside. -/
def addRunner (e : Engine) (registry : Registry) (services : Services) : RunnerId × Engine :=
  let id : RunnerId := ⟨e.next⟩
  (id, { e with
    next := e.next + 2
    runners := e.runners.put id ⟨registry, services, ⟨e.next + 1⟩⟩
    held := id :: e.held })

/-- No longer holds a runner from outside. -/
def releaseRunner (e : Engine) (id : RunnerId) : Engine :=
  { e with held := e.held.filter fun r => r != id }

/-- Opens a gate. -/
def openGate (e : Engine) (name : String) : Engine := { e with gates := name :: e.gates }

end DurableFlow.Engine
