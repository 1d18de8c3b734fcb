import DurableFlow.Definition

/-!
# Trials

A trial executes a step by itself, without an engine: no gate is open, no runner is there, and a
step that would have to wait is dropped, with its changes to the context so far.
-/

namespace DurableFlow

/-- How a step ended that was tried. -/
inductive TrialEnd
  | finished (outcome : Outcome)
  | panicked (payload : Panic)
  | suspended

/-- What came of trying a step. -/
structure Trial where
  ending : TrialEnd
  context : Context
  emissions : List Emission := []
  /-- Whether the token that the step was given is cancelled now. -/
  isCancelled : Bool

/-- Tries what a step does, its token being cancelled or not. -/
def Behaviour.attempt (isCancelled : Bool) : Behaviour → Trial
  | finish context outcome => { ending := .finished outcome, context, isCancelled }
  | panic context payload => { ending := .panicked payload, context, isCancelled }
  | emit x rest =>
    let t := rest.attempt isCancelled
    { t with emissions := x :: t.emissions }
  | cancel rest => rest.attempt true
  | await context signal rest =>
    if signal = .cancellation ∧ isCancelled then rest.attempt isCancelled
    else { ending := .suspended, context, isCancelled }
  | locate _ next => (next false).attempt isCancelled
  | launch context _ _ _ => { ending := .suspended, context, isCancelled }

/-- Tries steps one after the other on one context, with one token. -/
def Step.tryAll (context : Context) (isCancelled : Bool) : List Step → List Trial
  | [] => []
  | step :: rest =>
    let t := (step.execute context).attempt isCancelled
    t :: tryAll t.context t.isCancelled rest

end DurableFlow
