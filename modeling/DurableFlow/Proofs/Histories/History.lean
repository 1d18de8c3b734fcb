import DurableFlow.Engine.Course
import Mathlib.Data.List.Basic

/-!
# Histories

A history of an engine is a list of acts, one after the other: tasks move, runs are started and
resumed, continuations go off or are dropped, tasks are cut off between two moves, tokens are
cancelled. Every order of acts is a history, so that what holds of all histories holds however the
tasks take turns and wherever they are interrupted.

The chronicle of a history is the list of what was done for chains, each deed with the chain as it
was then. It is read off the stage in which a chain is taken on and off what comes of it.
-/

namespace DurableFlow

/-- What may happen to an engine. -/
inductive Act
  /-- A task is taken on by one move. -/
  | advance (task : Nat)
  | run (runner : RunnerId) (token : Token) (request : Request)
  | resume (runner : RunnerId) (token : Token) (workflow inst : String) (event : Event)
  /-- The continuation at a place among those that are armed goes off. -/
  | wake (place : Nat)
  /-- The continuation at a place among those that are armed is dropped. -/
  | drop (place : Nat)
  /-- A task is cut off, and does nothing any more. -/
  | cut (task : Nat)
  | cancel (token : Token)
  | cancelDelay (dispatcher : DispatcherId) (inst : String)
  | openGate (name : String)
  /-- Time passes, in milliseconds. -/
  | pass (millis : Nat)
  /-- A token is made up. -/
  | mint
  | addRunner (registry : Registry) (services : Services)
  | releaseRunner (runner : RunnerId)

/-- What holds at every place of a list of acts holds wherever the list is cut. -/
theorem Act.forall_split {P : List Act → Act → Prop} {as : List Act}
    (h : ∀ i, ∀ hi : i < as.length, P (as.take i) as[i]) :
    ∀ before a after, as = before ++ a :: after → P before a := by
  rintro before a after rfl
  simpa using h before.length (by simp)

/-- What is done for a chain. -/
inductive Deed
  /-- The chain starts at a position. -/
  | started (position : Nat)
  | executed (index : Nat)
  /-- The step at the index returned. -/
  | returned (index : Nat) (outcome : Outcome)
  /-- The chain has run past the last step, with this output. -/
  | passed (output : Option Json)
  | saved (next : Nat)
  /-- The position could not be saved. -/
  | unsaved (next : Nat)
  | published (notice : Notice)
  | refused (notice : Notice)
  /-- What the caller is told was decided. -/
  | settled (settlement : Settlement)
  /-- The chain was laid to rest until its delay is over. -/
  | suspended (next : Nat)
  /-- The continuation was not armed. -/
  | unscheduled (next : Nat)
  /-- The chain has come to its end. -/
  | stopped (result : RunResult)
  /-- A fault has stopped the chain. -/
  | halted (fault : Fault)
  /-- A panic has torn the chain down. -/
  | panicked
  /-- The chain was dropped while it rested, because its token was cancelled. -/
  | dropped
  /-- The chain was cut off. -/
  | lost

/-- The chain that a frame takes on. -/
def Frame.chain? : Frame → Option Chain
  | .driving _ chain _ => some chain
  | _ => none

/-- The completion that a call waits for once its chain has stopped or rests. -/
def Origin.receiver? : Origin → Option CompletionId
  | .call _ receiver => receiver
  | .direct | .continuation => none

/-- The completion that a frame waits for on behalf of a call, or will wait for. -/
def Frame.receiver? : Frame → Option CompletionId
  | .driving origin _ _ => origin.receiver?
  | .receiving _ c => some c
  | _ => none

/-- The chain that is about to execute its first step after a request has been opened. -/
def Move.started : Move → List (Chain × Deed)
  | .on _ { frames := .driving _ chain (.entering index) :: _, .. } => [(chain, .started index)]
  | _ => []

namespace Engine

/-- The engine with other timers. -/
def withTimers (e : Engine) (timers : Timers Continuation) : Engine :=
  { e with scheduler := { e.scheduler with timers } }

/-- Takes a continuation that is armed away. -/
def disarm (e : Engine) (place : Nat) : Engine :=
  let timers := e.scheduler.timers
  e.withTimers { timers with armed := timers.armed.eraseIdx place }

/-- The engine after an act; what cannot happen leaves it as it is. -/
def act (e : Engine) : Act → Engine
  | .advance number => (e.advance number).getD e
  | .run runner token request => (e.startRun runner token request).2
  | .resume runner token workflow inst event => (e.startResume runner token workflow inst event).2
  | .wake place =>
    match e.scheduler.timers.armed[place]? with
    | some timer => (e.disarm place).resumeContinuation timer.token timer.work
    | none => e
  | .drop place => e.disarm place
  | .cut number => { e with tasks := e.tasks.filter fun t => t.number != number }
  | .cancel token => e.cancel token
  | .cancelDelay dispatcher inst => (e.cancelDelay dispatcher inst).getD e
  | .openGate name => e.openGate name
  | .pass millis =>
    let timers := e.scheduler.timers
    e.withTimers (timers.moveTo (timers.clock + millis))
  | .mint => e.newToken.2
  | .addRunner registry services => (e.addRunner registry services).2
  | .releaseRunner runner => e.releaseRunner runner

section

variable {e m : Engine} {n : Nat} {t u : Task} {ending : Ending}

theorem act_advance_none (ht : e.task? n = none) : e.act (.advance n) = e := by
  simp [act, Engine.advance, ht]

theorem act_advance_blocked (ht : e.task? n = some t) (hmove : e.move t = .blocked) :
    e.act (.advance n) = e := by
  simp [act, Engine.advance, ht, hmove]

theorem act_advance_on (ht : e.task? n = some t) (hmove : e.move t = .on m u) :
    e.act (.advance n) = m.putTask u := by
  simp [act, Engine.advance, ht, hmove]

theorem act_advance_over (ht : e.task? n = some t) (hmove : e.move t = .over m ending) :
    e.act (.advance n) = m.endTask n ending := by
  simp [act, Engine.advance, ht, hmove]

variable {r : RunnerId} {q : Request} {resuming : Bool} {o : Origin} {c : Chain} {stage : Stage}
  {below : List Frame}

/-- A task that is not parked is taken on. -/
theorem move_of_unparked (hp : t.parked = false) : e.move t = e.moveTop t := by
  rw [move, hp]
  rfl

theorem moveTop_opening (ht : t.frames = .opening r q resuming :: below) :
    e.moveTop t = e.moveOpening t below r q resuming := by
  simp only [moveTop, ht]

theorem moveTop_driving (ht : t.frames = .driving o c stage :: below) :
    e.moveTop t = e.moveDriving t below o c stage := by
  simp only [moveTop, ht]

theorem move_opening (hp : t.parked = false) (ht : t.frames = .opening r q resuming :: below) :
    e.move t = e.moveOpening t below r q resuming :=
  (move_of_unparked hp).trans (moveTop_opening ht)

theorem move_driving (hp : t.parked = false) (ht : t.frames = .driving o c stage :: below) :
    e.move t = e.moveDriving t below o c stage :=
  (move_of_unparked hp).trans (moveTop_driving ht)

end

/-- The engine after a history. -/
def after (e : Engine) (as : List Act) : Engine := as.foldl act e

/-! ## The chronicle -/

/-- What is done for a chain when it is taken on. -/
def deed? (e : Engine) (token : Token) (chain : Chain) : Stage → Option Deed
  | .entering index =>
    if chain.definition.size ≤ index then some (.passed chain.context.output)
    else if e.isCancelled token then none
    else some (.executed index)
  | .inside index (.finish _ outcome) => some (.returned index outcome)
  | .inside _ (.panic _ _) => some .panicked
  | .inside _ _ | .calling _ _ => none
  | .acting ⟨.save next :: _, _⟩ =>
    match (e.save chain.inst next).2 with
    | .ok () => some (.saved next)
    | .error _ => some (.unsaved next)
  | .acting ⟨.publish news :: _, _⟩ =>
    match (e.publish (chain.notice news)).2 with
    | .ok () => some (.published (chain.notice news))
    | .error _ => some (.refused (chain.notice news))
  | .acting ⟨.settle settlement :: _, _⟩ => some (.settled settlement)
  | .acting ⟨[], .arrive _⟩ => none
  | .acting ⟨[], .suspend next due⟩ =>
    match (e.suspend chain token next due).2 with
    | .ok () => some (.suspended next)
    | .error _ => some (.unscheduled next)
  | .acting ⟨[], .stop result⟩ => some (.stopped result)
  | .halting fault => some (.halted fault)

/-- The chains of frames that are cut off. -/
def losses (frames : List Frame) : List (Chain × Deed) :=
  (frames.filterMap Frame.chain?).map fun chain => (chain, .lost)

/-- The calls of frames that are cut off: nobody is left to be told. -/
def severed (frames : List Frame) : List (CompletionId × Option Reply) :=
  (frames.filterMap Frame.receiver?).map fun c => (c, none)

/-- What is done for chains when a task is looked at. -/
def deedsOf (e : Engine) (t : Task) : List (Chain × Deed) :=
  if t.parked then
    if e.isCancelled t.token && (abandon t).isSome then losses t.frames.dropLast else []
  else
    match t.frames with
    | .opening _ _ _ :: _ => (e.moveTop t).started
    | .driving _ chain stage :: _ => ((e.deed? t.token chain stage).map (chain, ·)).toList
    | _ => []

/-- What a call that waits for a completion is told when its task is looked at, if it returns then;
nothing if it is given up. -/
def told (e : Engine) (t : Task) : List (CompletionId × Option Reply) :=
  if t.parked then
    if e.isCancelled t.token && (abandon t).isSome then severed t.frames.dropLast else []
  else
    match t.frames with
    | .driving (.call _ (some c)) _ (.halting fault) :: _ =>
      [(c, some (.settled ((e.settled.get? c).getD (.error (.fault fault)))))]
    | .driving (.call _ (some c)) _ (.inside _ (.panic _ payload)) :: _ =>
      [(c, some (.panicked payload))]
    | .receiving _ c :: _ =>
      match e.settled.get? c with
      | some s => [(c, some (.settled s))]
      | none => if e.isOwed c then [] else [(c, some (.settled (.error (.fault .cancelled))))]
    | _ => []

/-- What comes of looking at a task that is parked, with the deeds that are done then and what callers
are told. -/
inductive Looks (e : Engine) (t : Task) :
    List (Chain × Deed) → List (CompletionId × Option Reply) → Move → Prop
  | giveUp {fs o c stage} (hc : e.isCancelled t.token = true)
      (ht : t.frames = fs ++ [.driving o c stage]) (hs : stage.isInside = true) :
      Looks e t (losses fs) (severed fs)
        (.on e { t with parked := false, frames := [.driving o c (.halting .cancelled)] })
  | takeUp (h : e.isReady t = true) : Looks e t [] [] (.on e { t with parked := false })
  | wait (h : e.isReady t = false) : Looks e t [] [] .blocked

/-- A task is given up within the step of its outermost chain. -/
theorem abandon_eq_some {t t' : Task} (h : abandon t = some t') :
    ∃ fs o c stage, t.frames = fs ++ [.driving o c stage] ∧ stage.isInside = true ∧
      t' = { t with parked := false, frames := [.driving o c (.halting .cancelled)] } := by
  unfold abandon at h
  split at h
  · rename_i o c stage hlast
    obtain ⟨fs, hfs⟩ := List.getLast?_eq_some_iff.1 hlast
    split at h
    · rename_i hinside
      cases h
      exact ⟨fs, o, c, stage, hfs, hinside, rfl⟩
    · cases h
  · cases h

/-- **A task that is parked is given up, taken up again, or waits on.** -/
theorem looks_move {e : Engine} {t : Task} (hp : t.parked = true) :
    e.Looks t (e.deedsOf t) (e.told t) (e.move t) := by
  have hlook : e.Looks t [] []
      (if e.isReady t then .on e { t with parked := false } else .blocked) := by
    cases hready : e.isReady t with
    | true => exact .takeUp hready
    | false => exact .wait hready
  simp only [deedsOf, told, move, hp, if_true]
  cases hc : e.isCancelled t.token with
  | false => exact hlook
  | true =>
    cases hgive : abandon t with
    | none => exact hlook
    | some t' =>
      obtain ⟨fs, o, c, stage, hfs, hs, rfl⟩ := abandon_eq_some hgive
      simp only [hfs, List.dropLast_concat]
      exact .giveUp hc hfs hs

/-- What is done for chains by an act. -/
def deeds (e : Engine) : Act → List (Chain × Deed)
  | .advance number =>
    match e.task? number with
    | some t => e.deedsOf t
    | none => []
  | .drop place =>
    match e.scheduler.timers.armed[place]? with
    | some timer =>
      [(timer.work.chain, if e.isCancelled timer.token then .dropped else .lost)]
    | none => []
  | .cut number =>
    match e.task? number with
    | some t => losses t.frames
    | none => []
  | _ => []

/-- What calls that wait for completions are told by an act; nothing if they are cut off by it. -/
def replies (e : Engine) : Act → List (CompletionId × Option Reply)
  | .advance number =>
    match e.task? number with
    | some t => e.told t
    | none => []
  | .cut number =>
    match e.task? number with
    | some t => severed t.frames
    | none => []
  | _ => []

/-- What is done for chains in the course of a history. -/
def chronicle (e : Engine) : List Act → List (Chain × Deed)
  | [] => []
  | a :: as => e.deeds a ++ (e.act a).chronicle as

@[simp] theorem after_nil (e : Engine) : e.after [] = e := rfl

@[simp] theorem after_cons (e : Engine) (a : Act) (as : List Act) :
    e.after (a :: as) = (e.act a).after as := rfl

theorem after_append (e : Engine) (as bs : List Act) :
    e.after (as ++ bs) = (e.after as).after bs :=
  List.foldl_append

theorem chronicle_append (e : Engine) (as bs : List Act) :
    e.chronicle (as ++ bs) = e.chronicle as ++ (e.after as).chronicle bs := by
  induction as generalizing e with
  | nil => rfl
  | cons a as ih => simp only [List.cons_append, chronicle, ih, after_cons, List.append_assoc]

theorem chronicle_concat (e : Engine) (as : List Act) (a : Act) :
    e.chronicle (as ++ [a]) = e.chronicle as ++ (e.after as).deeds a := by
  simp [chronicle_append, chronicle]

/-- What is done by an act of a history is done in it. -/
theorem mem_chronicle {e : Engine} {before : List Act} {a : Act} {s : Chain × Deed}
    (hs : s ∈ (e.after before).deeds a) (after : List Act) :
    s ∈ e.chronicle (before ++ a :: after) := by
  rw [chronicle_append]
  exact List.mem_append_right _ (List.mem_append_left _ hs)

theorem after_concat (e : Engine) (as : List Act) (a : Act) :
    e.after (as ++ [a]) = (e.after as).act a := by
  simp [after_append]

end Engine

/-- Whether a deed is done for a chain by the task that takes it on. -/
def Deed.isWork : Deed → Bool
  | .started _ | .dropped | .lost => false
  | _ => true

namespace Engine

variable {e : Engine} {t : Task} {c : Chain} {d : Deed}

/-- A task works for the chain of its innermost frame. -/
theorem deed?_of_mem_deedsOf (hd : (c, d) ∈ e.deedsOf t) (hwork : d.isWork = true) :
    t.parked = false ∧ ∃ o stage below, t.frames = .driving o c stage :: below ∧
      e.deed? t.token c stage = some d := by
  unfold deedsOf at hd
  cases hp : t.parked with
  | true =>
    rw [hp, if_pos rfl] at hd
    split at hd
    · obtain ⟨c', -, heq⟩ := List.mem_map.1 hd
      cases heq
      cases hwork
    · cases hd
  | false =>
    simp only [hp, Bool.false_eq_true, if_false] at hd
    refine ⟨rfl, ?_⟩
    split at hd
    · unfold Move.started at hd
      split at hd
      · cases List.mem_singleton.1 hd
        cases hwork
      · cases hd
    · rename_i o c' stage below hframes
      obtain ⟨d', hd', heq⟩ := Option.map_eq_some_iff.1 (Option.mem_toList.1 hd)
      cases heq
      exact ⟨o, stage, below, hframes, hd'⟩
    · cases hd

/-- **Work is done when a task is taken on**, for the chain of its innermost frame. -/
theorem task_of_work {a : Act} (hd : (c, d) ∈ e.deeds a) (hwork : d.isWork = true) :
    ∃ n t, a = .advance n ∧ e.task? n = some t ∧ t.parked = false ∧ ∃ o stage below,
      t.frames = .driving o c stage :: below ∧ e.deed? t.token c stage = some d := by
  cases a with
  | advance n =>
    simp only [deeds] at hd
    split at hd
    · rename_i t ht
      exact ⟨n, t, rfl, ht, deed?_of_mem_deedsOf hd hwork⟩
    · cases hd
  | drop place =>
    simp only [deeds] at hd
    split at hd
    · obtain ⟨-, rfl⟩ := Prod.mk.inj (List.mem_singleton.1 hd)
      split at hwork <;> cases hwork
    · cases hd
  | cut n =>
    simp only [deeds] at hd
    split at hd
    · obtain ⟨c', -, heq⟩ := List.mem_map.1 hd
      cases heq
      cases hwork
    · cases hd
  | _ => cases hd

end Engine

/-- The deeds for those chains that satisfy `p`. -/
def Deed.of (p : Chain → Bool) (ds : List (Chain × Deed)) : List Deed :=
  (ds.filter fun d => p d.1).map Prod.snd

namespace Engine

/-- What is done for an instance in the course of a history. -/
def story (e : Engine) (inst : String) (as : List Act) : List Deed :=
  Deed.of (fun c => c.inst == inst) (e.chronicle as)

/-- What is done for the chain that owes a completion, for as long as it owes it. -/
def tale (e : Engine) (c : CompletionId) (as : List Act) : List Deed :=
  Deed.of (fun chain => chain.completion == some c) (e.chronicle as)

end Engine

end DurableFlow
