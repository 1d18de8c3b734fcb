import DurableFlow.Definition
import DurableFlow.Event

/-!
# Plans

The outcome of a step decides what is done for its instance: effects, one after the other, and then
a turn. The effects come in the order in which a crash between two of them does no harm: the next
position is saved before anything is published about it, and a caller is told last. A failure alone
tells the caller first, and saves nothing, so that the step is tried again.

| Outcome | Effects                                 | Turn            |
|---------|-----------------------------------------|-----------------|
| proceed | save `i + 1`                            | arrive `i + 1`  |
| jump    | save `j`                                | arrive `j`      |
| delay   | save `i + 1`, publish                   | suspend `i + 1` |
| wait    | save `i`, publish, settle               | stop            |
| failure | settle, publish                         | stop            |
| the end | publish, settle                         | stop            |
-/

namespace DurableFlow

/-- One thing done to the outside. -/
inductive Effect
  | save (next : Nat)
  | publish (news : News)
  /-- Tells the caller who waits, if there is one. -/
  | settle (settlement : Settlement)

/-- How an instance goes on once the effects are done. -/
inductive Turn
  | arrive (index : Nat)
  | suspend (next : Nat) (due : Instant)
  | stop (result : RunResult)

/-- Effects, and then a turn. -/
structure Plan where
  effects : List Effect
  turn : Turn

namespace Plan

/-- The result of an instance that has not completed. -/
def resultOf (c : Context) (status : Status) : RunResult := { inst := c.inst, status }

/-- What the outcome of the step at `index` leads to; a label has to be known. -/
def ofOutcome (d : Definition) (c : Context) (index : Nat) (now : Instant) :
    Outcome → Except Fault Plan
  | .proceed => .ok ⟨[.save (index + 1)], .arrive (index + 1)⟩
  | .jump label =>
    match d.labelIndex? label with
    | some target => .ok ⟨[.save target], .arrive target⟩
    | none => .error (.unknownLabel d.name label)
  | .delay duration =>
    let due := now.after duration
    .ok ⟨[.save (index + 1), .publish (.delayed (index + 1) due)], .suspend (index + 1) due⟩
  | .wait message =>
    let result := resultOf c .waiting
    .ok ⟨[.save index, .publish (.waiting index message), .settle (.ok result)], .stop result⟩
  | .failure cause =>
    .ok ⟨[.settle (.error (.stepFailed cause)), .publish (.failed index cause)],
      .stop (resultOf c .failed)⟩

/-- What running past the last step leads to. -/
def atEnd (c : Context) : Plan :=
  let result : RunResult := { inst := c.inst, status := .completed, output := c.output }
  ⟨[.publish .completed, .settle (.ok result)], .stop result⟩

end Plan

end DurableFlow
