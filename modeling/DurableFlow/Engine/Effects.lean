import DurableFlow.Engine

/-!
# Effects on an engine

What chains do to the outside: positions are loaded and saved, notices published, promises kept and
continuations armed. Each of these may fail, and then the chain stops.
-/

namespace DurableFlow.Engine

/-- Loads the position of an instance. -/
def load (e : Engine) (inst : String) : Engine × Except StoreError (Option Nat) :=
  let (store, result) := e.store.load inst
  let occurrence := match result with
    | .ok position => Occurrence.loaded inst position
    | .error _ => if e.store.failsLoad then .loadFailed inst else .unreadable inst
  ({ e with store }.record occurrence, result)

/-- Saves the position of an instance. -/
def save (e : Engine) (inst : String) (next : Nat) : Engine × Except StoreError Unit :=
  let (store, result) := e.store.save inst next
  let occurrence :=
    if e.store.failsSave then Occurrence.saveFailed inst next else .saving inst next
  ({ e with store }.record occurrence, result)

/-- Publishes a notice. -/
def publish (e : Engine) (notice : Notice) : Engine × Except Fault Unit :=
  let given := { e with notices := e.notices + 1 }
  if e.refuses e.notices notice.topic then
    (given.record (.refused e.now notice), .error .busClosed)
  else (given.record (.published e.now notice), .ok ())

/-- Keeps a promise, if it has been made; nobody keeps it twice. -/
def settle (e : Engine) (completion : Option CompletionId) (s : Settlement) : Engine :=
  match completion with
  | some c => { e with settled := e.settled.put c s }
  | none => e

/-- Does one thing for a chain; with a settlement, nothing is owed any more. -/
def perform (e : Engine) (chain : Chain) : Effect → Engine × Chain × Except Fault Unit
  | .save next =>
    let (e, result) := e.save chain.inst next
    (e, chain, result.mapError .store)
  | .publish news =>
    let (e, result) := e.publish (chain.notice news)
    (e, chain, result)
  | .settle s => (e.settle chain.completion s, { chain with completion := none }, .ok ())

/-- Enters a pending delay; the cancelled ones of the same dispatcher are removed first. -/
def track (e : Engine) (d : DispatcherId) (inst : String) (delay : PendingDelay) : Engine :=
  let pruned := e.pending.filter fun key p => !(key.1 == d && e.isCancelled p.token)
  { e with pending := pruned.put (d, inst) delay }

/-- Removes a pending delay, unless a later one has taken its place. -/
def untrack (e : Engine) (d : DispatcherId) (inst : String) (delay : Nat) : Engine :=
  match e.pending.get? (d, inst) with
  | some p => if p.number = delay then { e with pending := e.pending.erase (d, inst) } else e
  | none => e

/-- Starts a task for a continuation whose time has come. -/
def resumeContinuation (e : Engine) (token : Token) (k : Continuation) : Engine :=
  let e := e.untrack k.chain.dispatcher k.chain.inst k.delay
  (e.spawn token [.driving .continuation k.chain (.entering k.next)]).2

/-- Starts the tasks of the continuations that are due at once. -/
def releaseDue (e : Engine) : Engine :=
  if e.scheduler.mode = .clocked then
    match e.scheduler.timers.pop? e.scheduler.timers.clock with
    | some (timer, timers) =>
      { e with scheduler := { e.scheduler with timers } }.resumeContinuation timer.token timer.work
    | none => e
  else e

/-- Lays a chain to rest until an instant, under a token below its own. -/
def suspend (e : Engine) (chain : Chain) (token : Token) (next : Nat) (due : Instant) :
    Engine × Except Fault Unit :=
  let (delay, e) := e.fresh
  let handle := token.child delay
  let e := e.track chain.dispatcher chain.inst ⟨delay, handle⟩
  let (scheduler, result) := e.scheduler.schedule e.cancelled due handle ⟨chain, next, delay⟩
  let e := { e with scheduler }
  match result with
  | .ok () => ((e.record (.scheduled e.now due none)).releaseDue, .ok ())
  | .error error =>
    ((e.untrack chain.dispatcher chain.inst delay).record (.scheduled e.now due (some error)),
      .error (.scheduler error))

end DurableFlow.Engine
