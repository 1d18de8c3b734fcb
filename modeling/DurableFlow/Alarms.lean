import DurableFlow.Timers
import DurableFlow.Table

/-!
# Alarms

Callbacks under names, scheduled on a clock that its holder moves. A callback is scheduled with a
token and gets one of its own below it, which is also the handle by which the caller cancels it.
-/

namespace DurableFlow

/-- A callback that has run: its own token, when that was by the clock, and whether the token was
cancelled then. -/
structure Firing where
  name : String
  token : Token
  clock : Nat
  isCancelled : Bool
  deriving DecidableEq, Repr

/-- Scheduled callbacks, and tokens under names. -/
structure Alarms where
  timers : Timers String := { start := ⟨0⟩ }
  cancelled : List Token := []
  /-- The tokens that callbacks are scheduled with. -/
  tokens : Table String Token := .empty
  /-- The handle of the callback that was last accepted under a name. -/
  handles : Table String Token := .empty
  nextToken : Nat := 0
  fired : List Firing := []

namespace Alarms

/-- The token of that name, made up when it is first asked for. -/
def token (a : Alarms) (name : String) : Token × Alarms :=
  match a.tokens.get? name with
  | some t => (t, a)
  | none =>
    let t := Token.root a.nextToken
    (t, { a with tokens := a.tokens.put name t, nextToken := a.nextToken + 1 })

/-- Schedules a callback at an instant; `isRunning` tells whether there is something to run it. -/
def schedule (a : Alarms) (name : String) (due : Instant) (token : Token) (isRunning : Bool) :
    Except SchedulerError Alarms :=
  if token.isCancelled a.cancelled then .error .cancelled
  else if !isRunning then .error .noRuntime
  else
    let handle := token.child a.nextToken
    .ok { a with
      timers := a.timers.arm due handle name
      handles := a.handles.put name handle
      nextToken := a.nextToken + 1 }

/-- Cancels a token and forgets the callbacks that it takes with it. -/
def cancel (a : Alarms) (token : Token) : Alarms :=
  let cancelled := token :: a.cancelled
  { a with cancelled, timers := a.timers.prune cancelled }

/-- Cancels the callback of that name, if one was ever accepted. -/
def cancelHandle (a : Alarms) (name : String) : Option Alarms :=
  (a.handles.get? name).map a.cancel

/-- Whether the handle of that name is cancelled, if a callback was ever accepted under it. -/
def isCancelled? (a : Alarms) (name : String) : Option Bool :=
  (a.handles.get? name).map fun h => h.isCancelled a.cancelled

/-- Runs the callbacks that are due by `limit`, at most `fuel` of them. -/
def fireUntil (limit : Nat) : (fuel : Nat) → Alarms → Alarms
  | 0, a => a
  | fuel + 1, a =>
    match a.timers.pop? limit with
    | none => a
    | some (timer, timers) =>
      fireUntil limit fuel
        { a with
          timers
          fired := a.fired ++
            [⟨timer.work, timer.token, timers.clock, timer.token.isCancelled a.cancelled⟩] }

/-- Moves the clock on by some milliseconds and runs what becomes due. -/
def advance (a : Alarms) (millis : Nat) : Alarms :=
  let limit := a.timers.clock + millis
  let a := fireUntil limit a.timers.armed.length a
  { a with timers := a.timers.moveTo limit }

/-- Runs what is due already. -/
def settle (a : Alarms) : Alarms := a.advance 0

end Alarms

end DurableFlow
