import DurableFlow.Engine.Effects

/-!
# Moves of an engine

A task moves in small steps (`Engine.move`), each of which does at most one thing to the outside.
A task that waits is parked. When it is looked at again, its outermost frame comes first: if the
token of the task is cancelled by then, the step of that frame is given up together with all that
it waits for. A task that is not parked notices a cancellation when it is about to execute a step.
-/

namespace DurableFlow

/-- What comes of looking at a task. -/
inductive Move
  /-- It waits for something that has not happened. -/
  | blocked
  | on (engine : Engine) (task : Task)
  | over (engine : Engine) (ending : Ending)

namespace Engine

/-- Hands the end of a call to the frame below, or ends the task with it. -/
def answer (e : Engine) (t : Task) (below : List Frame) : Reply → Move := fun reply =>
  match below with
  | .driving origin chain (.calling index next) :: rest =>
    .on e (t.doing (.driving origin chain (.inside index (next reply)) :: rest))
  | _ =>
    match reply with
    | .settled s => .over e (.returned s)
    | .panicked p => .over e (.panicked p)

/-- Hands an error to the frame below. -/
def refuse (e : Engine) (t : Task) (below : List Frame) (fault : Fault) : Move :=
  e.answer t below (.settled (.error (.fault fault)))

/-- Parks a task. -/
def park (e : Engine) (t : Task) : Move := .on e { t with parked := true }

/-- The context of a new instance, and what is written while it is made up. -/
def seed (runner : RunnerId) (r : Runner) (d : Definition) (inst : String) (q : Request) :
    Work Unit :=
  let services := (q.services.getD r.services).insert .runner runner
  let c : Context := { inst, workflow := d.name, services }
  let c := match q.input with
    | some v => c.setInput v
    | none => c
  let w : Work Unit := match q.init with
    | some init => init c
    | none => ⟨[], c, .ok ()⟩
  match q.event with
  | some event => { w with context := w.context.deliver event }
  | none => w

/-- The identity that a request names, or one that is made up. -/
def identify (e : Engine) (q : Request) : String × Engine :=
  match q.inst with
  | some inst => (inst, e)
  | none => (e.identity e.identities, { e with identities := e.identities + 1 })

/-- Finds the definition and the position of an instance, and starts its chain. -/
def moveOpening (e : Engine) (t : Task) (below : List Frame) (id : RunnerId) (q : Request)
    (resuming : Bool) : Move :=
  match e.runners.get? id with
  | none => e.refuse t below (.workflowNotFound q.workflow)
  | some r =>
  match r.registry.find? q.workflow with
  | none => e.refuse t below (.workflowNotFound q.workflow)
  | some d =>
    let (inst, e) := e.identify q
    let (e, found) := e.load inst
    match found, resuming with
    | .error error, _ => e.refuse t below (.store error)
    | .ok none, true => e.refuse t below (.instanceNotFound inst)
    | .ok position, _ =>
      let w := seed id r d inst q
      let e := w.emissions.foldl (fun e x => e.record (.emitted x)) e
      match w.result with
      | .error p => e.answer t below (.panicked p)
      | .ok () =>
        let (number, e) := e.fresh
        let completion := if q.wait then some ⟨number⟩ else none
        let chain : Chain :=
          { definition := d, context := w.context, dispatcher := r.dispatcher, completion, number }
        .on e (t.doing
          (.driving (.call id completion) chain (.entering (position.getD 0)) :: below))

/-- Ends a chain that has come to a stop. -/
def finish (e : Engine) (t : Task) (below : List Frame) (origin : Origin) (result : RunResult) :
    Move :=
  match origin with
  | .call runner (some c) => .on e (t.doing (.receiving runner c :: below))
  | .call _ none | .direct | .continuation => e.answer t below (.settled (.ok result))

/-- Ends a chain that was stopped by a fault; a settlement that was made before counts more. -/
def halt (e : Engine) (t : Task) (below : List Frame) (origin : Origin) (chain : Chain)
    (fault : Fault) : Move :=
  let error : Settlement := .error (.fault fault)
  match origin with
  | .call _ (some c) => e.answer t below (.settled ((e.settled.get? c).getD error))
  | .call _ none | .direct => e.answer t below (.settled error)
  | .continuation => (e.settle chain.completion error).answer t below (.settled error)

/-- Ends a chain that a panic tears down. Behind a delay no call is left to panic: what waits for the
chain finds its promise broken, and the panic only shows where the continuation was run. -/
def tearDown (e : Engine) (t : Task) (below : List Frame) (origin : Origin) (chain : Chain)
    (payload : Panic) : Move :=
  match origin with
  | .call _ _ | .direct => e.answer t below (.panicked payload)
  | .continuation => (e.record (.tornDown chain.inst payload)).answer t below (.panicked payload)

/-- Takes the next thing that a step does. -/
def moveInside (e : Engine) (t : Task) (below : List Frame) (origin : Origin) (chain : Chain)
    (index : Nat) (b : Behaviour) : Move :=
  let go (e : Engine) (stage : Stage) : Move :=
    .on e (t.doing (.driving origin chain stage :: below))
  match b with
  | .finish context outcome =>
    let chain := { chain with context }
    match Plan.ofOutcome chain.definition context index e.now outcome with
    | .ok plan => .on e (t.doing (.driving origin chain (.acting plan) :: below))
    | .error fault => .on e (t.doing (.driving origin chain (.halting fault) :: below))
  | .panic _ payload => e.tearDown t below origin chain payload
  | .emit emission rest => go (e.record (.emitted emission)) (.inside index rest)
  | .cancel rest => go (e.cancel t.token) (.inside index rest)
  | .await _ signal rest =>
    if e.isSignalled t.token signal then go e (.inside index rest) else e.park t
  | .locate runner next => go e (.inside index (next (e.isAlive runner)))
  | .launch _ runner request next =>
    .on e (t.doing
      (.opening runner request false :: .driving origin chain (.calling index next) :: below))

/-- Does the next thing of a plan, or takes its turn. -/
def moveActing (e : Engine) (t : Task) (below : List Frame) (origin : Origin) (chain : Chain)
    (plan : Plan) : Move :=
  let go (e : Engine) (chain : Chain) (stage : Stage) : Move :=
    .on e (t.doing (.driving origin chain stage :: below))
  match plan with
  | ⟨effect :: rest, turn⟩ =>
    let (e, chain, result) := e.perform chain effect
    match result with
    | .ok () => go e chain (.acting ⟨rest, turn⟩)
    | .error fault => go e chain (.halting fault)
  | ⟨[], .arrive index⟩ => go e chain (.entering index)
  | ⟨[], .stop result⟩ => e.finish t below origin result
  | ⟨[], .suspend next due⟩ =>
    let (e, result) := e.suspend chain t.token next due
    match result with
    | .ok () => e.finish t below origin (Plan.resultOf chain.context .delayed)
    | .error fault => go e chain (.halting fault)

/-- Takes a chain on. -/
def moveDriving (e : Engine) (t : Task) (below : List Frame) (origin : Origin) (chain : Chain) :
    Stage → Move
  | .entering index =>
    match chain.definition.step? index with
    | none =>
      .on e (t.doing (.driving origin chain (.acting (Plan.atEnd chain.context)) :: below))
    | some step =>
      if e.isCancelled t.token then
        .on e (t.doing (.driving origin chain (.halting .cancelled) :: below))
      else
        .on (e.record (.executed chain.inst index chain.context))
          (t.doing (.driving origin chain (.inside index (step.execute chain.context)) :: below))
  | .inside index b => e.moveInside t below origin chain index b
  | .calling _ _ => .blocked
  | .acting plan => e.moveActing t below origin chain plan
  | .halting fault => e.halt t below origin chain fault

/-- Takes a task on that is not parked. -/
def moveTop (e : Engine) (t : Task) : Move :=
  match t.frames with
  | [] => .over e (.heard none)
  | .opening runner request resuming :: below => e.moveOpening t below runner request resuming
  | .driving origin chain stage :: below => e.moveDriving t below origin chain stage
  | .receiving _ c :: below =>
    match e.settled.get? c with
    | some s => e.answer t below (.settled s)
    | none => if e.isOwed c then e.park t else e.refuse t below .cancelled
  | .listening c :: _ =>
    match e.settled.get? c with
    | some s => .over e (.heard (some s))
    | none => if e.isOwed c then e.park t else .over e (.heard none)

/-- Whether what the innermost frame waits for has happened. -/
def isReady (e : Engine) (t : Task) : Bool :=
  match t.frames with
  | .driving _ _ (.inside _ (.await _ signal _)) :: _ => e.isSignalled t.token signal
  | .receiving _ c :: _ | .listening c :: _ => e.settled.contains c || !e.isOwed c
  | _ => true

/-- The outermost frame stopped within its step, and without the frames above it. -/
def abandon (t : Task) : Option Task :=
  match t.frames.getLast? with
  | some (.driving origin chain stage) =>
    if stage.isInside then
      some { t with parked := false, frames := [.driving origin chain (.halting .cancelled)] }
    else none
  | _ => none

/-- Looks at a task and takes it on by one move. -/
def move (e : Engine) (t : Task) : Move :=
  if t.parked then
    match if e.isCancelled t.token then abandon t else none with
    | some t => .on e t
    | none => if e.isReady t then .on e { t with parked := false } else .blocked
  else e.moveTop t

/-- Whether looking at a task takes it on. -/
def canMove (e : Engine) (t : Task) : Bool :=
  !t.parked || e.isReady t || (e.isCancelled t.token && (abandon t).isSome)

end Engine

end DurableFlow
