import DurableFlow.Proofs.Histories.History
import Mathlib.Data.List.InsertIdx

/-!
# Guarded engines

What an engine would look like if some steps of its workflows were guarded against panics
(`Engine.guardAt`): the steps, what is left of them in tasks, and nothing else. As long as none of
these steps panics, what happens to an engine happens to the guarded one, and leaves a guarded
engine behind. Main statements: `Engine.guardAt_move`, `Engine.guardAt_act`.
-/

namespace DurableFlow

/-- The behaviour, guarded or as it is. -/
def Behaviour.guardedIf (on : Bool) (b : Behaviour) : Behaviour := if on then b.guarded else b

/-- The step, guarded, under the same label. -/
def Step.guarded (s : Step) : Step := { s with execute := fun c => (s.execute c).guarded }

/-! ## What is guarded -/

section

variable (p : String → Nat → Bool)

/-- The definition with guarded steps at places that are known by its name and their index. -/
def Definition.guardAt (d : Definition) : Definition :=
  { d with steps := d.steps.mapIdx fun i s => if p d.name i then s.guarded else s }

/-- What is left of a step, guarded if the step is. -/
def Stage.guardAt (on : Nat → Bool) : Stage → Stage
  | .inside i b => .inside i (b.guardedIf (on i))
  | .calling i next => .calling i fun reply => (next reply).guardedIf (on i)
  | stage => stage

def Chain.guardAt (c : Chain) : Chain := { c with definition := c.definition.guardAt p }

def Frame.guardAt : Frame → Frame
  | .driving o c stage => .driving o (c.guardAt p) (stage.guardAt (p c.definition.name))
  | f => f

def Task.guardAt (t : Task) : Task := t.doing (t.frames.map (Frame.guardAt p))

def Timer.guardAt (x : Timer Continuation) : Timer Continuation :=
  { x with work := { x.work with chain := x.work.chain.guardAt p } }

def Timers.guardAt (ts : Timers Continuation) : Timers Continuation :=
  { ts with armed := ts.armed.map (Timer.guardAt p) }

def Scheduler.guardAt (s : Scheduler) : Scheduler := { s with timers := s.timers.guardAt p }

def Registry.guardAt (r : Registry) : Registry := ⟨r.definitions.map (Definition.guardAt p)⟩

def Runner.guardAt (r : Runner) : Runner := { r with registry := r.registry.guardAt p }

def Act.guardAt : Act → Act
  | .addRunner registry services => .addRunner (registry.guardAt p) services
  | a => a

/-- The engine with guarded steps; what has happened so far is the same. -/
def Engine.guardAt (e : Engine) : Engine :=
  { e with
    scheduler := e.scheduler.guardAt p
    runners := e.runners.map (Runner.guardAt p)
    tasks := e.tasks.map (Task.guardAt p) }

def Move.guardAt : Move → Move
  | .blocked => .blocked
  | .on e t => .on (e.guardAt p) (t.guardAt p)
  | .over e ending => .over (e.guardAt p) ending

end

variable {p : String → Nat → Bool}

namespace Definition

theorem step?_guardAt (d : Definition) (i : Nat) :
    (d.guardAt p).step? i =
      (d.step? i).map fun s => if p d.name i then s.guarded else s := List.getElem?_mapIdx

/-- Labels stand where they stood. -/
theorem labelIndex?_guardAt (d : Definition) (label : String) :
    (d.guardAt p).labelIndex? label = d.labelIndex? label := by
  have hlabels : (d.guardAt p).steps.map Step.label = d.steps.map Step.label := by
    refine List.ext_getElem? fun i => ?_
    simp only [guardAt, List.getElem?_map, List.getElem?_mapIdx, Option.map_map]
    congr 1
    funext s
    show (if p d.name i then s.guarded else s).label = s.label
    split <;> rfl
  have hfind : ∀ steps : List Step, steps.findIdx? (fun s => s.label == some label) =
      (steps.map Step.label).findIdx? (· == some label) := fun steps => by
    rw [List.findIdx?_map]
    rfl
  rw [labelIndex?, hfind, hlabels, ← hfind, labelIndex?]

end Definition

namespace Behaviour

@[simp] theorem guardedIf_finish (on : Bool) (c : Context) (o : Outcome) :
    (finish c o).guardedIf on = finish c o := by cases on <;> rfl

@[simp] theorem guardedIf_emit (on : Bool) (x : Emission) (b : Behaviour) :
    (emit x b).guardedIf on = emit x (b.guardedIf on) := by cases on <;> rfl

@[simp] theorem guardedIf_cancel (on : Bool) (b : Behaviour) :
    (cancel b).guardedIf on = cancel (b.guardedIf on) := by cases on <;> rfl

@[simp] theorem guardedIf_await (on : Bool) (c : Context) (s : Signal) (b : Behaviour) :
    (await c s b).guardedIf on = await c s (b.guardedIf on) := by cases on <;> rfl

@[simp] theorem guardedIf_locate (on : Bool) (r : RunnerId) (k : Bool → Behaviour) :
    (locate r k).guardedIf on = locate r fun alive => (k alive).guardedIf on := by
  cases on <;> rfl

@[simp] theorem guardedIf_launch (on : Bool) (c : Context) (r : RunnerId) (q : Request)
    (k : Reply → Behaviour) :
    (launch c r q k).guardedIf on = launch c r q fun reply => (k reply).guardedIf on := by
  cases on <;> rfl

end Behaviour

theorem Plan.ofOutcome_guardAt (d : Definition) (c : Context) (i : Nat) (now : Instant)
    (o : Outcome) : Plan.ofOutcome (d.guardAt p) c i now o = Plan.ofOutcome d c i now o := by
  cases o with
  | jump label => simp only [Plan.ofOutcome, d.labelIndex?_guardAt]; rfl
  | _ => rfl

namespace Frame

@[simp] theorem guardAt_runner (f : Frame) : (f.guardAt p).runner? = f.runner? := by
  cases f with
  | driving o c stage => cases o <;> rfl
  | _ => rfl

@[simp] theorem guardAt_owed (f : Frame) : (f.guardAt p).owed? = f.owed? := by cases f <;> rfl

end Frame

theorem Registry.find?_guardAt (r : Registry) (name : String) :
    (r.guardAt p).find? name = (r.find? name).map (Definition.guardAt p) :=
  Table.get?_map ..

/-! ## Timers -/

namespace Timers

theorem place_guardAt (x : Timer Continuation) (xs : List (Timer Continuation)) :
    place (x.guardAt p) (xs.map (Timer.guardAt p)) = (place x xs).map (Timer.guardAt p) := by
  induction xs with
  | nil => rfl
  | cons y ys ih =>
    have hle : ((y.guardAt p).deadline ≤ (x.guardAt p).deadline) = (y.deadline ≤ x.deadline) := rfl
    simp only [List.map_cons, place, hle, ih]
    split <;> rfl

theorem arm_guardAt (ts : Timers Continuation) (due : Instant) (τ : Token) (c : Chain)
    (next delay : Nat) :
    (ts.guardAt p).arm due τ ⟨c.guardAt p, next, delay⟩ =
      (ts.arm due τ ⟨c, next, delay⟩).guardAt p := by
  simp only [arm, guardAt, ← place_guardAt]
  rfl

theorem pop?_guardAt (ts : Timers Continuation) (limit : Nat) :
    (ts.guardAt p).pop? limit = (ts.pop? limit).map fun (x, ts) => (x.guardAt p, ts.guardAt p) := by
  unfold pop?
  simp only [guardAt]
  cases ts.armed with
  | nil => rfl
  | cons x xs =>
    show (if x.deadline ≤ limit then _ else _) = Option.map _ (if x.deadline ≤ limit then _ else _)
    split <;> rfl

end Timers

/-- A continuation is armed in both, or in neither for the same reason. -/
theorem Scheduler.schedule_guardAt (s : Scheduler) (cancelled : List Token) (due : Instant)
    (τ : Token) (c : Chain) (next delay : Nat) :
    (s.guardAt p).schedule cancelled due τ ⟨c.guardAt p, next, delay⟩ =
      ((s.schedule cancelled due τ ⟨c, next, delay⟩).1.guardAt p,
        (s.schedule cancelled due τ ⟨c, next, delay⟩).2) := by
  have hrefuses : (s.guardAt p).refuses (s.guardAt p).calls (s.guardAt p).accepted =
      s.refuses s.calls s.accepted := rfl
  have hmode : (s.guardAt p).mode = s.mode := rfl
  simp only [schedule, hrefuses, hmode]
  split
  · rfl
  · split
    · rfl
    · cases s.mode with
      | absent => rfl
      | clocked =>
        have harm := s.timers.arm_guardAt (p := p) due τ c next delay
        simp only [guardAt] at harm ⊢
        rw [harm]
      | manual =>
        simp only [guardAt, Timers.guardAt, List.map_append]
        rfl

namespace Engine

/-! ## Effects -/

section

variable (e : Engine)

theorem guardAt_emit (xs : List Emission) :
    xs.foldl (fun e x => e.record (.emitted x)) (e.guardAt p) =
      (xs.foldl (fun e x => e.record (.emitted x)) e).guardAt p := by
  induction xs generalizing e with
  | nil => rfl
  | cons x xs ih => exact ih (e.record (.emitted x))

theorem guardAt_publish (notice : Notice) :
    (e.guardAt p).publish notice =
      ((e.publish notice).1.guardAt p, (e.publish notice).2) := by
  show (if e.refuses e.notices notice.topic then _ else _) =
    (guardAt p (if e.refuses e.notices notice.topic then _ else _ : Engine × _).1, _)
  unfold publish
  split <;> rfl

theorem guardAt_settle (completion : Option CompletionId) (s : Settlement) :
    (e.guardAt p).settle completion s = (e.settle completion s).guardAt p := by
  cases completion <;> rfl

theorem guardAt_perform (c : Chain) (effect : Effect) :
    (e.guardAt p).perform (c.guardAt p) effect =
      ((e.perform c effect).1.guardAt p, (e.perform c effect).2.1.guardAt p,
        (e.perform c effect).2.2) := by
  cases effect with
  | save next => rfl
  | publish news =>
    have hpublish := e.guardAt_publish (p := p) (c.notice news)
    simp only [perform, show (c.guardAt p).notice news = c.notice news from rfl, hpublish]
  | settle s =>
    have hsettle := e.guardAt_settle (p := p) c.completion s
    simp only [perform, show (c.guardAt p).completion = c.completion from rfl, hsettle]
    rfl

theorem guardAt_untrack (d : DispatcherId) (x : String) (delay : Nat) :
    (e.guardAt p).untrack d x delay = (e.untrack d x delay).guardAt p := by
  unfold untrack
  rw [show (e.guardAt p).pending = e.pending from rfl]
  cases e.pending.get? (d, x) with
  | none => rfl
  | some entry =>
    dsimp only
    split <;> rfl

theorem guardAt_spawn (τ : Token) (frames : List Frame) :
    ((e.guardAt p).spawn τ (frames.map (Frame.guardAt p))).2 =
      (e.spawn τ frames).2.guardAt p := by
  simp only [spawn, guardAt, List.map_append]
  rfl

theorem guardAt_resumeContinuation (τ : Token) (c : Chain) (next delay : Nat) :
    (e.guardAt p).resumeContinuation τ ⟨c.guardAt p, next, delay⟩ =
      (e.resumeContinuation τ ⟨c, next, delay⟩).guardAt p := by
  have huntrack := e.guardAt_untrack (p := p) c.dispatcher c.inst delay
  have hspawn := (e.untrack c.dispatcher c.inst delay).guardAt_spawn (p := p) τ
    [.driving .continuation c (.entering next)]
  rw [← huntrack] at hspawn
  exact hspawn

theorem guardAt_releaseDue : (e.guardAt p).releaseDue = e.releaseDue.guardAt p := by
  have hpop : (e.guardAt p).scheduler.timers.pop? (e.guardAt p).scheduler.timers.clock =
      (e.scheduler.timers.pop? e.scheduler.timers.clock).map fun (x, ts) =>
        (x.guardAt p, ts.guardAt p) := e.scheduler.timers.pop?_guardAt _
  unfold releaseDue
  rw [hpop, show (e.guardAt p).scheduler.mode = e.scheduler.mode from rfl]
  split
  · cases e.scheduler.timers.pop? e.scheduler.timers.clock with
    | none => rfl
    | some x =>
      obtain ⟨x, timers⟩ := x
      exact guardAt_resumeContinuation { e with scheduler := { e.scheduler with timers } } x.token
        x.work.chain x.work.next x.work.delay
  · rfl

theorem guardAt_suspend (c : Chain) (τ : Token) (next : Nat) (due : Instant) :
    (e.guardAt p).suspend (c.guardAt p) τ next due =
      ((e.suspend c τ next due).1.guardAt p, (e.suspend c τ next due).2) := by
  unfold suspend
  dsimp only [fresh]
  have htrack : ∀ m : Engine, (m.guardAt p).track (c.guardAt p).dispatcher (c.guardAt p).inst
      ⟨e.next, τ.child e.next⟩ =
      (m.track c.dispatcher c.inst ⟨e.next, τ.child e.next⟩).guardAt p := fun _ => rfl
  have hfresh : ({ e.guardAt p with next := (e.guardAt p).next + 1 } : Engine) =
      ({ e with next := e.next + 1 } : Engine).guardAt p := rfl
  rw [hfresh, show (e.guardAt p).next = e.next from rfl, htrack]
  generalize Engine.track { e with next := e.next + 1 } _ _ _ = m
  have hschedule := m.scheduler.schedule_guardAt (p := p) m.cancelled due (τ.child e.next) c next
    e.next
  rw [show (m.guardAt p).scheduler = m.scheduler.guardAt p from rfl,
    show (m.guardAt p).cancelled = m.cancelled from rfl, hschedule]
  cases m.scheduler.schedule m.cancelled due (τ.child e.next) ⟨c, next, e.next⟩ with
  | mk scheduler result =>
    cases result with
    | ok _ =>
      have hrelease := (({ m with scheduler } : Engine).record
        (.scheduled scheduler.timers.now due none)).guardAt_releaseDue (p := p)
      exact Prod.ext hrelease rfl
    | error error =>
      have huntrack := ({ m with scheduler } : Engine).guardAt_untrack (p := p) c.dispatcher c.inst
        e.next
      refine Prod.ext ?_ rfl
      exact congrArg (fun m : Engine => m.record (.scheduled scheduler.timers.now due (some error)))
        huntrack

end

/-! ## What a task sees of its engine -/

section

variable (e : Engine)

theorem any_frames_guardAt {f : Frame → Bool} (hf : ∀ g : Frame, f (g.guardAt p) = f g) :
    ((e.guardAt p).tasks.any fun t => t.frames.any f) = e.tasks.any fun t => t.frames.any f := by
  simp only [guardAt, Task.guardAt, Task.doing, List.any_map, Function.comp_def, hf]

theorem isOwed_guardAt (k : CompletionId) : (e.guardAt p).isOwed k = e.isOwed k := by
  rw [isOwed, isOwed, e.any_frames_guardAt fun f => by rw [Frame.guardAt_owed]]
  simp only [guardAt, Scheduler.guardAt, Timers.guardAt, Scheduler.continuations, List.map_map,
    List.any_map]
  rfl

theorem isAlive_guardAt (r : RunnerId) : (e.guardAt p).isAlive r = e.isAlive r := by
  rw [isAlive, isAlive, e.any_frames_guardAt fun f => by rw [Frame.guardAt_runner]]
  rfl

theorem isReady_guardAt (t : Task) : (e.guardAt p).isReady (t.guardAt p) = e.isReady t := by
  unfold isReady
  rw [show (t.guardAt p).frames = t.frames.map (Frame.guardAt p) from rfl]
  cases t.frames with
  | nil => rfl
  | cons f below =>
    cases f with
    | driving o c stage =>
      cases stage with
      | inside i b =>
        simp only [List.map_cons, Frame.guardAt, Stage.guardAt]
        cases b with
        | panic context payload => cases p c.definition.name i <;> rfl
        | await context signal rest =>
          rw [Behaviour.guardedIf_await]
          cases signal <;> rfl
        | _ => simp
      | _ => rfl
    | receiving r k =>
      show ((e.guardAt p).settled.contains k || !(e.guardAt p).isOwed k) = _
      rw [isOwed_guardAt]
      rfl
    | listening k =>
      show ((e.guardAt p).settled.contains k || !(e.guardAt p).isOwed k) = _
      rw [isOwed_guardAt]
      rfl
    | _ => rfl

end

/-! ## Moves -/

theorem guardAt_answer (e : Engine) (t : Task) (below : List Frame) (reply : Reply) :
    (e.guardAt p).answer (t.guardAt p) (below.map (Frame.guardAt p)) reply =
      (e.answer t below reply).guardAt p := by
  unfold answer
  cases below with
  | nil => cases reply <;> rfl
  | cons f rest =>
    cases f with
    | driving o c stage =>
      cases stage with
      | calling i next => rfl
      | _ => cases reply <;> rfl
    | _ => cases reply <;> rfl

theorem guardAt_finish (e : Engine) (t : Task) (below : List Frame) (o : Origin)
    (result : RunResult) :
    (e.guardAt p).finish (t.guardAt p) (below.map (Frame.guardAt p)) o result =
      (e.finish t below o result).guardAt p := by
  cases o with
  | call r receiver =>
    cases receiver with
    | some k => rfl
    | none => exact e.guardAt_answer t below _
  | direct => exact e.guardAt_answer t below _
  | continuation => exact e.guardAt_answer t below _

theorem guardAt_halt (e : Engine) (t : Task) (below : List Frame) (o : Origin) (c : Chain)
    (fault : Fault) :
    (e.guardAt p).halt (t.guardAt p) (below.map (Frame.guardAt p)) o (c.guardAt p) fault =
      (e.halt t below o c fault).guardAt p := by
  cases o with
  | call r receiver => cases receiver <;> exact e.guardAt_answer t below _
  | direct => exact e.guardAt_answer t below _
  | continuation =>
    have hanswer := (e.settle c.completion (.error (.fault fault))).guardAt_answer (p := p) t below
      (.settled (.error (.fault fault)))
    rwa [← guardAt_settle] at hanswer

theorem guardAt_tearDown (e : Engine) (t : Task) (below : List Frame) (o : Origin) (c : Chain)
    (payload : Panic) :
    (e.guardAt p).tearDown (t.guardAt p) (below.map (Frame.guardAt p)) o (c.guardAt p) payload =
      (e.tearDown t below o c payload).guardAt p := by
  cases o with
  | call r receiver => exact e.guardAt_answer t below _
  | direct => exact e.guardAt_answer t below _
  | continuation => exact (e.record (.tornDown c.inst payload)).guardAt_answer t below _

/-- A step that is guarded is taken on as it is, unless it panics. -/
theorem guardAt_moveInside (e : Engine) (t : Task) (below : List Frame) (o : Origin) (c : Chain)
    (i : Nat) (b : Behaviour)
    (hb : p c.definition.name i = true → ∀ context x, b ≠ .panic context x) :
    (e.guardAt p).moveInside (t.guardAt p) (below.map (Frame.guardAt p)) o (c.guardAt p) i
        (b.guardedIf (p c.definition.name i)) = (e.moveInside t below o c i b).guardAt p := by
  cases b with
  | finish context outcome =>
    rw [Behaviour.guardedIf_finish]
    have hplan := Plan.ofOutcome_guardAt (p := p) c.definition context i e.now outcome
    simp only [moveInside, show (c.guardAt p).definition = c.definition.guardAt p from rfl,
      show (e.guardAt p).now = e.now from rfl, hplan]
    cases Plan.ofOutcome c.definition context i e.now outcome <;> rfl
  | panic context payload =>
    cases hp : p c.definition.name i with
    | true => exact absurd rfl (hb hp context payload)
    | false => exact e.guardAt_tearDown t below o c payload
  | emit x rest => rw [Behaviour.guardedIf_emit]; rfl
  | cancel rest => rw [Behaviour.guardedIf_cancel]; rfl
  | await context signal rest =>
    rw [Behaviour.guardedIf_await]
    simp only [moveInside, show (e.guardAt p).isSignalled (t.guardAt p).token signal =
      e.isSignalled t.token signal by cases signal <;> rfl]
    split <;> rfl
  | locate r next =>
    rw [Behaviour.guardedIf_locate]
    simp only [moveInside, isAlive_guardAt]
    rfl
  | launch context r q next => rw [Behaviour.guardedIf_launch]; rfl

theorem guardAt_moveActing (e : Engine) (t : Task) (below : List Frame) (o : Origin) (c : Chain)
    (plan : Plan) :
    (e.guardAt p).moveActing (t.guardAt p) (below.map (Frame.guardAt p)) o (c.guardAt p) plan =
      (e.moveActing t below o c plan).guardAt p := by
  obtain ⟨effects, turn⟩ := plan
  cases effects with
  | cons effect es =>
    simp only [moveActing, guardAt_perform]
    cases (e.perform c effect).2.2 <;> rfl
  | nil =>
    cases turn with
    | arrive i => rfl
    | stop result => exact e.guardAt_finish t below o result
    | suspend next due =>
      simp only [moveActing, show (t.guardAt p).token = t.token from rfl, guardAt_suspend]
      cases (e.suspend c t.token next due).2 with
      | ok _ => exact (e.suspend c t.token next due).1.guardAt_finish t below o _
      | error fault => rfl

theorem guardAt_moveDriving (e : Engine) (t : Task) (below : List Frame) (o : Origin) (c : Chain)
    (stage : Stage)
    (hstage : ∀ i context x, stage = .inside i (.panic context x) → p c.definition.name i = false) :
    (e.guardAt p).moveDriving (t.guardAt p) (below.map (Frame.guardAt p)) o (c.guardAt p)
        (stage.guardAt (p c.definition.name)) = (e.moveDriving t below o c stage).guardAt p := by
  cases stage with
  | entering i =>
    have hstep : (c.guardAt p).definition.step? i =
        (c.definition.step? i).map fun s => if p c.definition.name i then s.guarded else s :=
      c.definition.step?_guardAt i
    simp only [moveDriving, Stage.guardAt, hstep]
    cases c.definition.step? i with
    | none => rfl
    | some s =>
      simp only [Option.map_some, show (e.guardAt p).isCancelled (t.guardAt p).token =
        e.isCancelled t.token from rfl]
      split
      · rfl
      · simp only [Move.guardAt, Task.guardAt, Task.doing, Frame.guardAt, Stage.guardAt,
          Behaviour.guardedIf, List.map_cons]
        cases p c.definition.name i <;> rfl
  | inside i b =>
    refine e.guardAt_moveInside t below o c i b fun hp context x hb => ?_
    cases (hstage i context x (hb ▸ rfl)).symm.trans hp
  | calling i next => rfl
  | acting plan => exact e.guardAt_moveActing t below o c plan
  | halting fault => exact e.guardAt_halt t below o c fault

theorem seed_guardAt (id : RunnerId) (r : Runner) (d : Definition) (inst : String) (q : Request) :
    seed id (r.guardAt p) (d.guardAt p) inst q = seed id r d inst q := rfl

theorem guardAt_moveOpening (e : Engine) (t : Task) (below : List Frame) (id : RunnerId)
    (q : Request) (resuming : Bool) :
    (e.guardAt p).moveOpening (t.guardAt p) (below.map (Frame.guardAt p)) id q resuming =
      (e.moveOpening t below id q resuming).guardAt p := by
  unfold moveOpening
  have hrunner : (e.guardAt p).runners.get? id = (e.runners.get? id).map (Runner.guardAt p) :=
    Table.get?_map ..
  rw [hrunner]
  cases e.runners.get? id with
  | none => exact e.guardAt_answer t below _
  | some r =>
    dsimp only [Option.map_some]
    rw [show (r.guardAt p).registry = r.registry.guardAt p from rfl, r.registry.find?_guardAt]
    cases r.registry.find? q.workflow with
    | none => exact e.guardAt_answer t below _
    | some d =>
      dsimp only [Option.map_some]
      have hidentify : (e.guardAt p).identify q =
          ((e.identify q).1, (e.identify q).2.guardAt p) := by
        unfold identify
        cases q.inst <;> rfl
      have hload : ∀ (m : Engine) (inst : String), (m.guardAt p).load inst =
          ((m.load inst).1.guardAt p, (m.load inst).2) := fun _ _ => rfl
      simp only [hidentify, hload, seed_guardAt]
      generalize (e.identify q).2.load (e.identify q).1 = l
      generalize (e.identify q).1 = inst
      split
      · exact l.1.guardAt_answer t below _
      · exact l.1.guardAt_answer t below _
      · simp only [guardAt_emit]
        cases (seed id r d inst q).result with
        | error x => exact Engine.guardAt_answer _ t below _
        | ok _ => rfl

end Engine

/-- The task is about to panic at such a place. -/
def Task.PanicsAt (p : String → Nat → Bool) (t : Task) : Prop :=
  ∃ o c i context x below, t.frames = .driving o c (.inside i (.panic context x)) :: below ∧
    p c.definition.name i = true

namespace Engine

theorem guardAt_moveTop (e : Engine) {t : Task} (ht : ¬ t.PanicsAt p) :
    (e.guardAt p).moveTop (t.guardAt p) = (e.moveTop t).guardAt p := by
  unfold moveTop
  rw [show (t.guardAt p).frames = t.frames.map (Frame.guardAt p) from rfl]
  cases hframes : t.frames with
  | nil => rfl
  | cons f below =>
    cases f with
    | opening id q resuming => exact e.guardAt_moveOpening t below id q resuming
    | driving o c stage =>
      refine e.guardAt_moveDriving t below o c stage fun i context x hstage => ?_
      rw [Bool.eq_false_iff]
      exact fun hp => ht ⟨o, c, i, context, x, below, hstage ▸ hframes, hp⟩
    | receiving id k =>
      simp only [List.map_cons, Frame.guardAt,
        show (e.guardAt p).settled = e.settled from rfl, isOwed_guardAt]
      split
      · exact e.guardAt_answer t below _
      · split
        · rfl
        · exact e.guardAt_answer t below _
    | listening k =>
      simp only [List.map_cons, Frame.guardAt,
        show (e.guardAt p).settled = e.settled from rfl, isOwed_guardAt]
      split
      · rfl
      · split <;> rfl

theorem abandon_guardAt (t : Task) :
    abandon (t.guardAt p) = (abandon t).map (Task.guardAt p) := by
  have hlast : (t.guardAt p).frames.getLast? = t.frames.getLast?.map (Frame.guardAt p) :=
    List.getLast?_map ..
  unfold abandon
  rw [hlast]
  cases t.frames.getLast? with
  | none => rfl
  | some f =>
    cases f with
    | driving o c stage => cases stage <;> rfl
    | _ => rfl

/-- **A task moves in an engine as it does in the guarded one**, unless it panics at a place that is
guarded. -/
theorem guardAt_move (e : Engine) {t : Task} (ht : ¬ t.PanicsAt p) :
    (e.guardAt p).move (t.guardAt p) = (e.move t).guardAt p := by
  unfold move
  rw [show (t.guardAt p).parked = t.parked from rfl, abandon_guardAt, isReady_guardAt,
    show (e.guardAt p).isCancelled (t.guardAt p).token = e.isCancelled t.token from rfl]
  cases t.parked with
  | false => exact e.guardAt_moveTop ht
  | true =>
    simp only [if_true]
    cases e.isCancelled t.token with
    | false =>
      simp only [Bool.false_eq_true, if_false]
      split <;> rfl
    | true =>
      simp only [if_true]
      cases abandon t with
      | some u => rfl
      | none =>
        simp only [Option.map_none]
        split <;> rfl

/-! ## Acts -/

theorem task?_guardAt (e : Engine) (n : Nat) :
    (e.guardAt p).task? n = (e.task? n).map (Task.guardAt p) := by
  rw [task?, task?, guardAt, List.find?_map]
  rfl

theorem guardAt_putTask (e : Engine) (t : Task) :
    (e.guardAt p).putTask (t.guardAt p) = (e.putTask t).guardAt p := by
  simp only [putTask, guardAt, List.map_map]
  congr 1
  refine List.map_congr_left fun u _ => ?_
  show (if u.number == t.number then _ else _) = Task.guardAt p (if u.number == t.number then _ else _)
  split <;> rfl

theorem filter_tasks_guardAt (e : Engine) (f : Nat → Bool) :
    (e.guardAt p).tasks.filter (fun t => f t.number) =
      (e.tasks.filter fun t => f t.number).map (Task.guardAt p) := by
  rw [guardAt, List.filter_map]
  rfl

theorem guardAt_endTask (e : Engine) (n : Nat) (ending : Ending) :
    (e.guardAt p).endTask n ending = (e.endTask n ending).guardAt p := by
  have htasks := e.filter_tasks_guardAt (p := p) fun m => m != n
  rw [endTask, htasks]
  rfl

theorem guardAt_disarm (e : Engine) (place : Nat) :
    (e.guardAt p).disarm place = (e.disarm place).guardAt p := by
  simp only [disarm, withTimers, guardAt, Scheduler.guardAt, Timers.guardAt, List.eraseIdx_map]

/-- The task that an act takes on is about to panic at such a place. -/
def PanicsAt (p : String → Nat → Bool) (e : Engine) : Act → Prop
  | .advance n => ∃ t ∈ e.task? n, t.PanicsAt p
  | _ => False

/-- **What happens to an engine happens to the guarded one**, unless a step panics that is guarded
there. -/
theorem guardAt_act (e : Engine) {a : Act} (ha : ¬ e.PanicsAt p a) :
    (e.guardAt p).act (a.guardAt p) = (e.act a).guardAt p := by
  cases a with
  | advance n =>
    show ((e.guardAt p).advance n).getD (e.guardAt p) = guardAt p ((e.advance n).getD e)
    unfold advance
    rw [task?_guardAt]
    cases ht : e.task? n with
    | none => rfl
    | some t =>
      have hmove := e.guardAt_move (p := p) (t := t) fun hpanics => ha ⟨t, ht, hpanics⟩
      simp only [Option.map_some, hmove]
      cases e.move t with
      | blocked => rfl
      | on m u => exact m.guardAt_putTask u
      | «over» m ending => exact m.guardAt_endTask n ending
  | run id τ q => exact e.guardAt_spawn τ [.opening id q false]
  | resume id τ workflow inst event =>
    exact e.guardAt_spawn τ [.opening id { workflow, inst := some inst, event := some event } true]
  | wake place =>
    have harmed : (e.guardAt p).scheduler.timers.armed[place]? =
        (e.scheduler.timers.armed[place]?).map (Timer.guardAt p) := List.getElem?_map ..
    simp only [act, Act.guardAt, harmed]
    cases e.scheduler.timers.armed[place]? with
    | none => rfl
    | some x =>
      simp only [Option.map_some, guardAt_disarm]
      exact (e.disarm place).guardAt_resumeContinuation x.token x.work.chain x.work.next x.work.delay
  | drop place => exact e.guardAt_disarm place
  | cut n =>
    have htasks := e.filter_tasks_guardAt (p := p) fun m => m != n
    simp only [act, Act.guardAt, htasks]
    rfl
  | cancel τ => rfl
  | cancelDelay d inst =>
    simp only [act, Act.guardAt, cancelDelay, show (e.guardAt p).pending = e.pending from rfl]
    cases e.pending.get? (d, inst) <;> rfl
  | openGate name => rfl
  | pass millis => rfl
  | mint => rfl
  | addRunner registry services =>
    have hput := Table.map_put (Runner.guardAt p) e.runners ⟨e.next⟩
      ⟨registry, services, ⟨e.next + 1⟩⟩
    simp only [act, addRunner, Act.guardAt, guardAt, hput]
    rfl
  | releaseRunner r => rfl

/-! ## The chronicle -/

/-- A deed, for the chain with guarded steps. -/
def guardDeed (p : String → Nat → Bool) (d : Chain × Deed) : Chain × Deed := (d.1.guardAt p, d.2)

theorem losses_guardAt (frames : List Frame) :
    losses (frames.map (Frame.guardAt p)) = (losses frames).map (guardDeed p) := by
  induction frames with
  | nil => rfl
  | cons f below ih =>
    cases f with
    | driving o c stage => exact congrArg ((c.guardAt p, Deed.lost) :: ·) ih
    | _ => exact ih

theorem deed?_guardAt (e : Engine) (τ : Token) (c : Chain) (stage : Stage)
    (hstage : ∀ i context x, stage = .inside i (.panic context x) → p c.definition.name i = false) :
    (e.guardAt p).deed? τ (c.guardAt p) (stage.guardAt (p c.definition.name)) =
      e.deed? τ c stage := by
  cases stage with
  | entering i =>
    have hsize : (c.guardAt p).definition.size = c.definition.size := List.length_mapIdx
    simp only [Stage.guardAt, deed?, hsize]
    rfl
  | inside i b =>
    cases b with
    | panic context x =>
      have hp := hstage i context x rfl
      simp only [Stage.guardAt, hp]
      rfl
    | _ => simp [Stage.guardAt, deed?]
  | calling i next => rfl
  | acting plan =>
    obtain ⟨effects, turn⟩ := plan
    cases effects with
    | cons effect es =>
      cases effect with
      | save next => rfl
      | publish news =>
        have hpublish := e.guardAt_publish (p := p) (c.notice news)
        simp only [Stage.guardAt, deed?, show (c.guardAt p).notice news = c.notice news from rfl,
          hpublish]
      | settle s => rfl
    | nil =>
      cases turn with
      | suspend next due =>
        simp only [Stage.guardAt, deed?, guardAt_suspend]
      | _ => rfl
  | halting fault => rfl

theorem started_guardAt (m : Move) : (m.guardAt p).started = m.started.map (guardDeed p) := by
  cases m with
  | on e t =>
    obtain ⟨n, τ, parked, frames⟩ := t
    cases frames with
    | nil => rfl
    | cons f below =>
      cases f with
      | driving o c stage => cases stage <;> rfl
      | _ => rfl
  | _ => rfl

theorem deedsOf_guardAt (e : Engine) {t : Task} (ht : ¬ t.PanicsAt p) :
    (e.guardAt p).deedsOf (t.guardAt p) = (e.deedsOf t).map (guardDeed p) := by
  unfold deedsOf
  rw [show (t.guardAt p).parked = t.parked from rfl, abandon_guardAt,
    show (e.guardAt p).isCancelled (t.guardAt p).token = e.isCancelled t.token from rfl,
    show (t.guardAt p).frames = t.frames.map (Frame.guardAt p) from rfl, Option.isSome_map,
    ← List.map_dropLast, losses_guardAt, e.guardAt_moveTop ht]
  cases t.parked with
  | true =>
    simp only [if_true]
    split <;> rfl
  | false =>
    simp only [Bool.false_eq_true, if_false]
    cases hframes : t.frames with
    | nil => rfl
    | cons f below =>
      cases f with
      | opening id q resuming => exact started_guardAt _
      | driving o c stage =>
        have hdeed := e.deed?_guardAt (p := p) t.token c stage fun i context x hstage => by
          rw [Bool.eq_false_iff]
          exact fun hp => ht ⟨o, c, i, context, x, below, hstage ▸ hframes, hp⟩
        simp only [List.map_cons, Frame.guardAt, show (t.guardAt p).token = t.token from rfl, hdeed]
        cases e.deed? t.token c stage <;> rfl
      | _ => rfl

/-- The same is done for chains with guarded steps, unless a step panics that is guarded there. -/
theorem deeds_guardAt (e : Engine) {a : Act} (ha : ¬ e.PanicsAt p a) :
    (e.guardAt p).deeds (a.guardAt p) = (e.deeds a).map (guardDeed p) := by
  cases a with
  | advance n =>
    simp only [Act.guardAt, deeds, task?_guardAt]
    cases ht : e.task? n with
    | none => rfl
    | some t => exact e.deedsOf_guardAt fun hpanics => ha ⟨t, ht, hpanics⟩
  | drop place =>
    have harmed : (e.guardAt p).scheduler.timers.armed[place]? =
        (e.scheduler.timers.armed[place]?).map (Timer.guardAt p) := List.getElem?_map ..
    simp only [Act.guardAt, deeds, harmed]
    cases e.scheduler.timers.armed[place]? <;> rfl
  | cut n =>
    simp only [Act.guardAt, deeds, task?_guardAt]
    cases e.task? n with
    | none => rfl
    | some t => exact losses_guardAt t.frames
  | _ => rfl

/-! ## Histories -/

/-- No step panics at such a place throughout a history. -/
def NeverPanicsAt (p : String → Nat → Bool) (e : Engine) (as : List Act) : Prop :=
  ∀ before a after, as = before ++ a :: after → ¬ (e.after before).PanicsAt p a

/-- **A history of an engine is one of the guarded engine**, unless a step panics that is guarded
there: what is done for chains is the same, and it leaves a guarded engine behind. -/
theorem guardAt_after {e : Engine} {as : List Act} (h : e.NeverPanicsAt p as) :
    (e.guardAt p).after (as.map (Act.guardAt p)) = (e.after as).guardAt p ∧
      (e.guardAt p).chronicle (as.map (Act.guardAt p)) = (e.chronicle as).map (guardDeed p) := by
  induction as generalizing e with
  | nil => exact ⟨rfl, rfl⟩
  | cons a as ih =>
    have ha := h [] a as rfl
    obtain ⟨hafter, hchronicle⟩ := ih (e := e.act a) fun before b after heq => by
      exact h (a :: before) b after (by rw [heq]; rfl)
    simp only [List.map_cons, after_cons, chronicle, e.guardAt_act ha, e.deeds_guardAt ha, hafter,
      hchronicle, List.map_append, and_self]

end Engine

end DurableFlow
