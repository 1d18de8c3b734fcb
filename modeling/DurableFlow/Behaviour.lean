import DurableFlow.Context
import DurableFlow.Outcome

/-!
# Behaviours

A behaviour is what a running step does, one request at a time: it writes something, cancels the
token it was given, waits for a signal, looks for a runner or launches a nested run, and at last
finishes with a context and an outcome, or panics. The context of a request is the context as it
stands then, so that a step that is dropped while it waits leaves its changes behind.

`Behaviour.guarded` contains panics: main statement, a guarded behaviour never panics
(`not_panics_guarded`).
-/

namespace DurableFlow

/-- What a body writes to the outside. -/
inductive Emission
  /-- A log line of an instance. -/
  | line (sink : Sink) (inst text : String)
  | note (value : Json)
  | snapshot (context : Context)

/-- What a body waits for: a gate, which once open stays open, or the cancellation of its token. -/
inductive Signal
  | gate (name : String)
  | cancellation
  deriving DecidableEq, Repr

/-- What a body that cannot wait does: what it writes, the context it leaves and its result. -/
structure Work (α : Type) where
  emissions : List Emission := []
  context : Context
  result : Except Panic α

/-- Where an instance stands when a call about it returns. -/
inductive Status
  | completed
  | failed
  | waiting
  | delayed
  deriving DecidableEq, Repr

/-- The result of a run; the output is that of a completed instance. -/
structure RunResult where
  inst : String
  status : Status
  output : Option Json := none

/-- What a caller that waits for an instance is told. -/
abbrev Settlement := Except RunError RunResult

/-- A request to start or continue an instance of a workflow. -/
structure Request where
  workflow : String
  /-- A new identity is made up where none is given. -/
  inst : Option String := none
  /-- Whether the caller waits until the instance completes, fails or parks. -/
  wait : Bool := false
  input : Option Json := none
  /-- What is done to the context after the input is set. -/
  init : Option (Context → Work Unit) := none
  event : Option Event := none
  /-- The services of the instance, where they are not those of the runner. -/
  services : Option Services := none

/-- How a nested run ended: with a settlement, or by a panic that nothing contained. -/
inductive Reply
  | settled (s : Settlement)
  | panicked (p : Panic)

/-- What a running step does next. -/
inductive Behaviour
  | finish (context : Context) (outcome : Outcome)
  | panic (context : Context) (payload : Panic)
  | emit (emission : Emission) (next : Behaviour)
  /-- Cancels the token that the step was given. -/
  | cancel (next : Behaviour)
  | await (context : Context) (signal : Signal) (next : Behaviour)
  /-- Asks whether a runner is still there. -/
  | locate (runner : RunnerId) (next : Bool → Behaviour)
  | launch (context : Context) (runner : RunnerId) (request : Request) (next : Reply → Behaviour)

namespace Behaviour

/-- Writes a list of emissions first. -/
def emitAll (emissions : List Emission) (b : Behaviour) : Behaviour :=
  emissions.foldr emit b

/-- The behaviour with every panic turned into a failure. -/
def guarded : Behaviour → Behaviour
  | finish c o => finish c o
  | panic c p => finish c (.failure (.panicked p))
  | emit e b => emit e b.guarded
  | cancel b => cancel b.guarded
  | await c s b => await c s b.guarded
  | locate r k => locate r fun alive => (k alive).guarded
  | launch c r q k => launch c r q fun reply => (k reply).guarded

/-- Some course of the behaviour, for some answers to its requests, ends in a panic. -/
inductive Panics : Behaviour → Prop
  | panic (c : Context) (p : Panic) : Panics (panic c p)
  | emit {e : Emission} {b : Behaviour} : Panics b → Panics (emit e b)
  | cancel {b : Behaviour} : Panics b → Panics (cancel b)
  | await {c : Context} {s : Signal} {b : Behaviour} : Panics b → Panics (await c s b)
  | locate {r : RunnerId} {k : Bool → Behaviour} (alive : Bool) :
      Panics (k alive) → Panics (locate r k)
  | launch {c : Context} {r : RunnerId} {q : Request} {k : Reply → Behaviour} (reply : Reply) :
      Panics (k reply) → Panics (launch c r q k)

theorem not_panics_guarded (b : Behaviour) : ¬ b.guarded.Panics := by
  induction b with
  | finish c o => intro h; cases h
  | panic c p => intro h; cases h
  | emit e b ih => intro h; cases h with | emit h => exact ih h
  | cancel b ih => intro h; cases h with | cancel h => exact ih h
  | await c s b ih => intro h; cases h with | await h => exact ih h
  | locate r k ih => intro h; cases h with | locate alive h => exact ih alive h
  | launch c r q k ih => intro h; cases h with | launch reply h => exact ih reply h

end Behaviour

/-- Continues with what a body that cannot wait has done. -/
def Work.toBehaviour (w : Work Outcome) : Behaviour :=
  .emitAll w.emissions <|
    match w.result with
    | .ok o => .finish w.context o
    | .error p => .panic w.context p

end DurableFlow
