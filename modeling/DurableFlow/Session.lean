import DurableFlow.Assembly
import DurableFlow.Engine.Course

/-!
# Sessions

A session drives one engine by commands. After each of them everything that can move does, the clock
moves on a little, and a report tells what happened: the response to the command, the new part of
the journal, the runs that have ended since, and the delays that are pending.

Runs are numbered in the order in which they are launched. Besides its runner, a session has a
second dispatcher, which drives chains without one.
-/

namespace DurableFlow

/-- What is told to the second dispatcher. -/
structure DispatchOrder where
  workflow : String
  inst : String
  start : Nat := 0
  input : Option Json := none
  init : Option (Context → Work Unit) := none
  /-- Whether the chain owes a completion. -/
  completion : Bool := false
  /-- Whether somebody waits for the completion. -/
  listen : Bool := true
  /-- The workflow that the context names, where it is not that of the definition. -/
  contextWorkflow : Option String := none

/-- What a session is told to do. -/
inductive Command
  | run (request : Request) (token : Option String)
  | resume (workflow inst : String) (event : Event) (token : Option String)
  | dispatch (order : DispatchOrder) (token : Option String)
  | fire (n : Nat)
  | advance (seconds : Nat)
  | cancel (token : String)
  | openGate (name : String)
  /-- Cancels a pending delay, of the runner or of the second dispatcher. -/
  | cancelDelay (inst : String) (direct : Bool)
  | hasPending (inst : String)
  | save (inst : String) (next : Nat)
  | load (inst : String)
  | registry (name : String)
  /-- Asks whether a reference reaches the runner. -/
  | handle
  | restart
  | dropRunner

/-- The response to a command. -/
inductive Response
  | running (run : Nat)
  | ended (ending : Ending)
  | dispatched (definition : Definition) (context : Context)
  | truth (b : Bool)
  | nothing
  | noWorkflow
  | noRunner
  | saved
  | position (inst : String) (next : Option Nat)
  | storeFailed (error : StoreError)
  | registry (registry : Registry) (name : String)
  | rebuilt (result : Except AssemblyError Registry)

/-- An instance with a pending delay, of the runner or of the second dispatcher. -/
structure PendingName where
  inst : String
  direct : Bool

/-- The instance as it is listed. -/
def PendingName.text (p : PendingName) : String :=
  if p.direct then "dispatcher:" ++ p.inst else p.inst

/-- What a session tells after a command. -/
structure Report where
  response : Response
  trace : List Occurrence
  settled : List (Nat × Ending)
  pending : List String

/-- An engine, what it is put together from, and how it is spoken of. -/
structure Session where
  engine : Engine
  assembly : Assembly
  runner : Option RunnerId
  direct : DispatcherId
  tokens : Table String Token := .empty
  /-- The numbers of tasks and of the runs that they are. -/
  runs : List (Nat × Nat) := []
  nextRun : Nat := 0
  /-- How much of the journal has been told. -/
  toldJournal : Nat := 0
  /-- How many endings have been told. -/
  toldEndings : Nat := 0

namespace Session

/-- The milliseconds that pass after each command. -/
def pause : Nat := 5

/-- Puts an engine together and starts a session with it. -/
def start (a : Assembly) (scheduler : Scheduler) (refuses : Nat → Topic → Bool)
    (identity : Nat → String) : Except AssemblyError Session := do
  let (registry, store) ← a.build.2
  let engine : Engine := { store, scheduler, refuses, identity, next := 1 }
  let (runner, engine) := engine.addRunner registry a.services
  return { engine, assembly := a, runner := some runner, direct := ⟨0⟩ }

/-- The names of the registry of the runner. -/
def names (s : Session) : List String :=
  match s.runner.bind s.engine.runners.get? with
  | some r => r.registry.names
  | none => []

/-- The token of that name, made up when it is first asked for; without a name a new one. -/
def token (s : Session) (name : Option String) : Token × Session :=
  let (fresh, engine) := s.engine.newToken
  match name with
  | none => (fresh, { s with engine })
  | some name =>
    match s.tokens.get? name with
    | some t => (t, s)
    | none => (fresh, { s with engine, tokens := s.tokens.put name fresh })

/-- Numbers a task as the next run. -/
def launch (s : Session) (started : Nat × Engine) : Nat × Session :=
  (s.nextRun, { s with
    engine := started.2
    runs := s.runs ++ [(started.1, s.nextRun)]
    nextRun := s.nextRun + 1 })

/-- Everything that can move moves. -/
def settle (s : Session) : Session := { s with engine := s.engine.settleAll }

/-- The endings of runs that have not been told, by number. -/
def newEndings (s : Session) : List (Nat × Ending) :=
  let found := (s.engine.endings.drop s.toldEndings).filterMap fun (task, ending) =>
    (s.runs.lookup task).map fun run => (run, ending)
  found.mergeSort fun a b => a.1 ≤ b.1

/-- The instances with pending delays. -/
def pending (s : Session) : List String :=
  let dispatcher := (s.runner.bind s.engine.runners.get?).map Runner.dispatcher
  let found := s.engine.pending.keys.filterMap fun (d, inst) =>
    if d = s.direct then some (PendingName.text ⟨inst, true⟩)
    else if some d = dispatcher then some (PendingName.text ⟨inst, false⟩)
    else none
  found.mergeSort (· ≤ ·)

/-- Whether a session gets to see an occurrence. The panic of a continuation shows to those who run
it by hand; the task in which a clock runs it takes the panic with it. -/
def sees (s : Session) : Occurrence → Bool
  | .tornDown _ _ => s.engine.scheduler.mode = .manual
  | _ => true

/-- Ends a command with a report. -/
def report (s : Session) (response : Response) : Report × Session :=
  let s := { s with engine := s.settle.engine.elapse pause }
  ({ response
     trace := (s.engine.journal.drop s.toldJournal).filter s.sees
     settled := s.newEndings
     pending := s.pending },
    { s with toldJournal := s.engine.journal.length, toldEndings := s.engine.endings.length })

/-- Ends a command that launched a run; its own ending, if it has come, is the response. -/
def reportRun (run : Nat) (s : Session) : Report × Session :=
  let (r, s) := s.report (.running run)
  match r.settled.find? fun x => x.1 == run with
  | some (_, ending) =>
    ({ r with response := .ended ending, settled := r.settled.filter fun x => x.1 != run }, s)
  | none => (r, s)

/-- The context that a dispatch starts with, and what is written while it is made up. -/
def seedOrder (s : Session) (order : DispatchOrder) (d : Definition) : Work Unit :=
  let c : Context :=
    { inst := order.inst
      workflow := order.contextWorkflow.getD d.name
      services := s.assembly.services }
  let c := match order.input with
    | some v => c.setInput v
    | none => c
  match order.init with
  | some init => init c
  | none => ⟨[], c, .ok ()⟩

/-- Starts a chain on the second dispatcher; a listener comes before it. -/
def dispatch (s : Session) (order : DispatchOrder) (token : Option String) (d : Definition) :
    Report × Session :=
  let (token, s) := s.token token
  let w := s.seedOrder order d
  let engine := w.emissions.foldl (fun e x => e.record (.emitted x)) s.engine
  let (number, engine) := engine.fresh
  let completion := if order.completion then some ⟨number⟩ else none
  let chain : Chain :=
    { definition := d, context := w.context, dispatcher := s.direct, completion }
  let listening := order.completion && order.listen
  let (chainTask, engine) := engine.startDispatch token chain order.start
  let (listener, engine) :=
    if listening then engine.startListening token ⟨number⟩ else (chainTask, engine)
  let s := { s with engine }
  let s := if listening then (s.launch (listener, s.engine)).2 else s
  (s.launch (chainTask, s.engine)).2.report (.dispatched d w.context)

/-- Lets the runner go, and what is armed by hand, and puts a new one together. -/
def restart (s : Session) : Report × Session :=
  let engine := match s.runner with
    | some id => s.engine.releaseRunner id
    | none => s.engine
  let engine :=
    if engine.scheduler.mode = .manual then
      let (engine, queue) := engine.dropArmed
      engine.run Engine.patience queue
    else engine
  let assembly := { s.assembly with supplied := some engine.store }
  match assembly.build.2 with
  | .error e => { s with engine, runner := none }.report (.rebuilt (.error e))
  | .ok (registry, _) =>
    let (runner, engine) := engine.addRunner registry s.assembly.services
    { s with engine, runner := some runner }.report (.rebuilt (.ok registry))

/-- Does what the session is told, with a runner if it has one. -/
def execute (s : Session) : Command → Report × Session
  | .run request token =>
    match s.runner with
    | none => s.report .noRunner
    | some runner =>
      let (token, s) := s.token token
      let (run, s) := s.launch (s.engine.startRun runner token request)
      s.reportRun run
  | .resume workflow inst event token =>
    match s.runner with
    | none => s.report .noRunner
    | some runner =>
      let (token, s) := s.token token
      let (run, s) := s.launch (s.engine.startResume runner token workflow inst event)
      s.reportRun run
  | .dispatch order token =>
    match s.runner.bind s.engine.runners.get? with
    | none => s.report .noRunner
    | some r =>
      match r.registry.find? order.workflow with
      | none => s.report .noWorkflow
      | some d => s.dispatch order token d
  | .fire n =>
    match s.engine.fire n with
    | some engine => { s with engine }.report (.truth true)
    | none => s.report (.truth false)
  | .advance seconds =>
    { s with engine := s.engine.settleAll.elapse (seconds * 1000) }.report .nothing
  | .cancel name =>
    let (token, s) := s.token (some name)
    { s with engine := s.engine.cancel token }.report .nothing
  | .openGate name => { s with engine := s.engine.openGate name }.report .nothing
  | .cancelDelay inst direct =>
    let dispatcher :=
      if direct then some s.direct
      else (s.runner.bind s.engine.runners.get?).map Runner.dispatcher
    match dispatcher with
    | none => s.report .noRunner
    | some d =>
      match s.engine.cancelDelay d inst with
      | some engine => { s with engine }.report (.truth true)
      | none => s.report (.truth false)
  | .hasPending inst =>
    match s.runner.bind s.engine.runners.get? with
    | none => s.report .noRunner
    | some r => s.report (.truth (s.engine.hasPending r.dispatcher inst))
  | .save inst next =>
    let (engine, result) := s.engine.save inst next
    let s := { s with engine }
    match result with
    | .ok () => s.report .saved
    | .error e => s.report (.storeFailed e)
  | .load inst =>
    let (engine, result) := s.engine.load inst
    let s := { s with engine }
    match result with
    | .ok next => s.report (.position inst next)
    | .error e => s.report (.storeFailed e)
  | .registry name =>
    match s.runner.bind s.engine.runners.get? with
    | none => s.report .noRunner
    | some r => s.report (.registry r.registry name)
  | .handle =>
    match s.runner with
    | none => s.report .noRunner
    | some id => s.report (.truth (s.engine.isAlive id))
  | .restart => s.restart
  | .dropRunner =>
    match s.runner with
    | some id => { s with engine := s.engine.releaseRunner id, runner := none }.report .nothing
    | none => s.report .noRunner

/-- The instances that the store was asked about, with the positions that it holds for them. -/
def positions (s : Session) : List (String × Option Nat) :=
  let seen := s.engine.journal.filterMap fun
    | .loaded inst _ | .loadFailed inst | .unreadable inst | .saving inst _
    | .saveFailed inst _ => some inst
    | _ => none
  seen.eraseDups.map fun inst => (inst, s.engine.store.position? inst)

/-- The lines that were written to memory sinks, by sink. -/
def lines (s : Session) : List (String × String × String) :=
  s.engine.journal.filterMap fun
    | .emitted (.line (.memory sink) inst text) => some (sink, inst, text)
    | _ => none

end Session

end DurableFlow
