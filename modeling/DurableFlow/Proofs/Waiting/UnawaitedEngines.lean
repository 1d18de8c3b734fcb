import DurableFlow.Proofs.NestedRuns.UnawaitedCalls
import DurableFlow.Proofs.Isolation.Mirrors

/-!
# Engines without a caller who waits

What an engine would look like if nobody had waited for a certain run: its chain owes no completion,
its call does not wait for one, and all the rest is the same (`Engine.Hushes`). Whatever is done to
the outside in the one is done in the other.
-/

namespace DurableFlow

/-! ## What is hushed -/

section

variable (n : Nat) (k : Option CompletionId)

/-- The call, not waiting for that completion. -/
def Origin.hush : Origin → Origin
  | .call runner receiver => .call runner (receiver.filter fun j => decide (some j ≠ k))
  | o => o

/-- The chain, not owing that completion. -/
def Chain.hush (c : Chain) : Chain :=
  { c with completion := c.completion.filter fun j => decide (some j ≠ k) }

def Frame.hush : Frame → Frame
  | .driving o c stage => .driving (o.hush k) (c.hush k) stage
  | f => f

/-- The request of a call that does not wait. -/
def Frame.mute : Frame → Frame
  | .opening r q resuming => .opening r { q with wait := false } resuming
  | f => f

/-- The task, not having to do with that completion. As long as there is none, the task of the run
is about to ask for it. -/
def Task.hush (t : Task) : Task :=
  t.doing (t.frames.map (if k = none ∧ t.number = n then Frame.mute else Frame.hush k))

/-- Whether a task waits for that completion, on behalf of a call. -/
def Task.awaits (t : Task) : Bool :=
  t.frames.head?.any fun f => match f with
    | .receiving _ j => decide (some j = k)
    | _ => false

def Timer.hush (x : Timer Continuation) : Timer Continuation :=
  { x with work := { x.work with chain := x.work.chain.hush k } }

/-- The scheduler, none of whose timers has to do with that completion. -/
def Scheduler.hush (s : Scheduler) : Scheduler :=
  { s with timers := { s.timers with armed := s.timers.armed.map (Timer.hush k) } }

/-- An engine is the other one hushed: nobody has to do with the completion, other promises have
been kept in the same way, other tasks have ended alike, and the rest is the same. -/
structure Engine.Hushes (e e' : Engine) : Prop where
  tasks : e'.tasks = (e.tasks.filter fun t => !t.awaits k).map (Task.hush n k)
  scheduler : e'.scheduler = e.scheduler.hush k
  settled : ∀ j, some j ≠ k → e'.settled.get? j = e.settled.get? j
  endings : e'.endings.filter (fun x => x.1 != n) = e.endings.filter fun x => x.1 != n
  store : e'.store = e.store
  refuses : e'.refuses = e.refuses
  notices : e'.notices = e.notices
  cancelled : e'.cancelled = e.cancelled
  gates : e'.gates = e.gates
  runners : e'.runners = e.runners
  held : e'.held = e.held
  pending : e'.pending = e.pending
  journal : e'.journal = e.journal
  identity : e'.identity = e.identity
  identities : e'.identities = e.identities
  next : e'.next = e.next

end

variable {n : Nat} {k : Option CompletionId}

namespace Origin

@[simp] theorem hush_call_none (r : RunnerId) : (call r none).hush k = call r none := rfl

theorem hush_of_eq (r : RunnerId) (j : CompletionId) :
    (call r (some j)).hush (some j) = call r none := by simp [hush, Option.filter]

theorem hush_of_ne (r : RunnerId) {j : CompletionId} (h : some j ≠ k) :
    (call r (some j)).hush k = call r (some j) := by simp [hush, Option.filter, h]

theorem hush_of_receiver {o : Origin} (h : o.receiver? ≠ k ∨ o.receiver? = none) :
    o.hush k = o := by
  cases o with
  | call r receiver =>
    cases receiver with
    | none => rfl
    | some j => exact hush_of_ne r (h.resolve_right (by simp [receiver?]))
  | direct => rfl
  | continuation => rfl

end Origin

namespace Chain

@[simp] theorem hush_definition (c : Chain) : (c.hush k).definition = c.definition := rfl
@[simp] theorem hush_dispatcher (c : Chain) : (c.hush k).dispatcher = c.dispatcher := rfl
@[simp] theorem hush_inst (c : Chain) : (c.hush k).inst = c.inst := rfl
@[simp] theorem hush_notice (c : Chain) (news : News) :
    (c.hush k).notice news = c.notice news := rfl

theorem hush_of_eq {c : Chain} {j : CompletionId} (h : c.completion = some j) :
    (c.hush (some j)).completion = none := by simp [hush, h, Option.filter]

theorem hush_of_ne {c : Chain} (h : c.completion ≠ k ∨ c.completion = none) : c.hush k = c := by
  cases c with
  | mk definition context dispatcher completion =>
    cases completion with
    | none => rfl
    | some j =>
      have hne : some j ≠ k := h.resolve_right (by simp)
      simp [hush, Option.filter, hne]

theorem hush_completion_eq_some {c : Chain} {j : CompletionId} (hj : some j ≠ k) :
    (c.hush k).completion = some j ↔ c.completion = some j := by
  simp only [hush, Option.filter_eq_some_iff, decide_eq_true_eq]
  exact and_iff_left hj

end Chain

namespace Frame

@[simp] theorem hush_runner (f : Frame) : (f.hush k).runner? = f.runner? := by
  cases f with
  | driving o c stage => cases o <;> rfl
  | _ => rfl

@[simp] theorem mute_runner (f : Frame) : f.mute.runner? = f.runner? := by cases f <;> rfl

theorem hush_owed {f : Frame} {j : CompletionId} (hj : some j ≠ k) :
    (f.hush k).owed? = some j ↔ f.owed? = some j := by
  cases f with
  | driving o c stage => exact Chain.hush_completion_eq_some hj
  | _ => exact Iff.rfl

@[simp] theorem mute_owed (f : Frame) : f.mute.owed? = f.owed? := by cases f <;> rfl

/-- Nothing changes for frames that have nothing to do with the completion. -/
theorem hush_of_ne {f : Frame} (hreceiver : f.receiver? ≠ k ∨ f.receiver? = none)
    (howed : f.owed? ≠ k ∨ f.owed? = none) : f.hush k = f := by
  cases f with
  | driving o c stage =>
    show driving (o.hush k) (c.hush k) stage = _
    rw [Origin.hush_of_receiver hreceiver, Chain.hush_of_ne howed]
  | _ => rfl

@[simp] theorem hush_none (f : Frame) : f.hush none = f :=
  hush_of_ne (Or.symm (em _)) (Or.symm (em _))

end Frame

namespace Task

theorem hush_of_frames {t : Task} (hnumber : ¬ (k = none ∧ t.number = n))
    (hframes : ∀ f ∈ t.frames, f.hush k = f) : t.hush n k = t := by
  have hsame : t.frames.map (Frame.hush k) = t.frames :=
    (List.map_congr_left hframes).trans (List.map_id _)
  rw [hush, if_neg hnumber, hsame]
  rfl

@[simp] theorem awaits_none (t : Task) : t.awaits none = false := by
  unfold awaits
  cases t.frames with
  | nil => rfl
  | cons f fs => cases f <;> rfl

theorem awaits_iff {t : Task} : t.awaits k = true ↔
    ∃ r j below, k = some j ∧ t.frames = .receiving r j :: below := by
  unfold awaits
  cases hframes : t.frames with
  | nil => simp
  | cons f fs =>
    cases f with
    | receiving r j => simp [eq_comm]
    | _ => simp

end Task

namespace Scheduler

/-- Nothing changes for a scheduler that has nothing to do with the completion. -/
theorem hush_of_ne {s : Scheduler}
    (h : ∀ x ∈ s.timers.armed, x.work.chain.completion ≠ k ∨ x.work.chain.completion = none) :
    s.hush k = s := by
  have harmed : s.timers.armed.map (Timer.hush k) = s.timers.armed := by
    refine (List.map_congr_left fun x hx => ?_).trans (List.map_id _)
    rw [Timer.hush, Chain.hush_of_ne (h x hx)]
    rfl
  rw [hush, harmed]

theorem place_hush (x : Timer Continuation) (xs : List (Timer Continuation)) :
    Timers.place (x.hush k) (xs.map (Timer.hush k)) = (Timers.place x xs).map (Timer.hush k) := by
  induction xs with
  | nil => rfl
  | cons y ys ih =>
    have hle : ((y.hush k).deadline ≤ (x.hush k).deadline) = (y.deadline ≤ x.deadline) := rfl
    simp only [List.map_cons, Timers.place, hle, ih]
    split <;> rfl

/-- A continuation is armed in both, or in neither for the same reason. -/
theorem schedule_hush (s : Scheduler) (cancelled : List Token) (due : Instant) (τ : Token)
    (c : Chain) (next delay : Nat) :
    (s.hush k).schedule cancelled due τ ⟨c.hush k, next, delay⟩ =
      ((s.schedule cancelled due τ ⟨c, next, delay⟩).1.hush k,
        (s.schedule cancelled due τ ⟨c, next, delay⟩).2) := by
  have hdeadline : (s.hush k).timers.deadline due = s.timers.deadline due := rfl
  have hrefuses : (s.hush k).refuses (s.hush k).calls (s.hush k).accepted =
      s.refuses s.calls s.accepted := rfl
  have hmode : (s.hush k).mode = s.mode := rfl
  simp only [schedule, hrefuses, hmode]
  split
  · rfl
  · split
    · rfl
    · cases s.mode with
      | absent => rfl
      | clocked =>
        have harm : (s.hush k).timers.arm due τ ⟨c.hush k, next, delay⟩ =
            { s.timers with
              armed := ((s.timers.arm due τ ⟨c, next, delay⟩).armed).map (Timer.hush k) } := by
          simp only [Timers.arm, hdeadline]
          rw [← place_hush]
          rfl
        simp only [harm]
        rfl
      | manual =>
        have harmed : ∀ x : Timer Continuation, (s.hush k).timers.armed ++ [x.hush k] =
            (s.timers.armed ++ [x]).map (Timer.hush k) := by
          intro x
          rw [List.map_append]
          rfl
        have hx := harmed ⟨s.timers.deadline due, τ, ⟨c, next, delay⟩⟩
        simp only [Timer.hush] at hx
        simp only [hdeadline, hx]
        rfl

end Scheduler

namespace Engine

variable {e e' m m' : Engine} {c : Chain}

namespace Hushes

/-! ## Effects -/

section

variable (h : e.Hushes n k e')
include h

theorem now : e'.now = e.now := by
  rw [Engine.now, Engine.now, h.scheduler]
  rfl

theorem isCancelled (τ : Token) : e'.isCancelled τ = e.isCancelled τ := by
  rw [Engine.isCancelled, Engine.isCancelled, h.cancelled]

theorem record (x : Occurrence) : (e.record x).Hushes n k (e'.record x) :=
  { h with journal := congrArg (· ++ [x]) h.journal }

theorem cancel (τ : Token) : (e.cancel τ).Hushes n k (e'.cancel τ) :=
  { h with cancelled := congrArg (τ :: ·) h.cancelled }

theorem fresh : e'.fresh.1 = e.fresh.1 ∧ e.fresh.2.Hushes n k e'.fresh.2 :=
  ⟨h.next, { h with next := congrArg (· + 1) h.next }⟩

theorem emit (xs : List Emission) :
    (xs.foldl (fun e x => e.record (.emitted x)) e).Hushes n k
      (xs.foldl (fun e x => e.record (.emitted x)) e') := by
  induction xs generalizing e e' with
  | nil => exact h
  | cons x xs ih => exact ih (h.record (.emitted x))

theorem load (x : String) :
    (e'.load x).2 = (e.load x).2 ∧ (e.load x).1.Hushes n k (e'.load x).1 := by
  unfold Engine.load
  rw [h.store]
  exact ⟨rfl, { h with store := rfl, journal := congrArg (· ++ [_]) h.journal }⟩

theorem save (x : String) (i : Nat) :
    (e'.save x i).2 = (e.save x i).2 ∧ (e.save x i).1.Hushes n k (e'.save x i).1 := by
  unfold Engine.save
  rw [h.store]
  exact ⟨rfl, { h with store := rfl, journal := congrArg (· ++ [_]) h.journal }⟩

theorem publish (notice : Notice) :
    (e'.publish notice).2 = (e.publish notice).2 ∧
      (e.publish notice).1.Hushes n k (e'.publish notice).1 := by
  unfold Engine.publish
  rw [h.refuses, h.notices, h.now]
  dsimp only
  split
  · exact ⟨rfl, { h with
      refuses := rfl, notices := rfl, journal := congrArg (· ++ [_]) h.journal }⟩
  · exact ⟨rfl, { h with
      refuses := rfl, notices := rfl, journal := congrArg (· ++ [_]) h.journal }⟩

theorem identify (q : Request) :
    (e'.identify q).1 = (e.identify q).1 ∧ (e.identify q).2.Hushes n k (e'.identify q).2 := by
  unfold Engine.identify
  rw [h.identity, h.identities]
  split
  · exact ⟨rfl, h⟩
  · exact ⟨rfl, { h with identity := rfl, identities := rfl }⟩

/-- A settlement for the completion is not noticed. -/
theorem settle (c : Chain) (s : Settlement) :
    (e.settle c.completion s).Hushes n k (e'.settle (c.hush k).completion s) := by
  cases hc : c.completion with
  | none =>
    rw [Chain.hush_of_ne (.inr hc), hc]
    exact h
  | some j =>
    by_cases hj : some j = k
    · subst hj
      rw [Chain.hush_of_eq hc]
      refine { h with settled := fun i hi => ?_ }
      show e'.settled.get? i = (e.settled.put j s).get? i
      rw [Table.get?_put_of_ne _ _ fun heq => hi (congrArg some heq)]
      exact h.settled i hi
    · rw [Chain.hush_of_ne (.inl fun heq => hj (hc.symm.trans heq)), hc]
      refine { h with settled := fun i hi => ?_ }
      show (e'.settled.put j s).get? i = (e.settled.put j s).get? i
      rw [Table.get?_put, Table.get?_put, h.settled i hi]

theorem perform (c : Chain) (effect : Effect) :
    (e.perform c effect).1.Hushes n k (e'.perform (c.hush k) effect).1 ∧
      (e'.perform (c.hush k) effect).2 =
        ((e.perform c effect).2.1.hush k, (e.perform c effect).2.2) := by
  cases effect with
  | save next =>
    obtain ⟨hresult, hsaved⟩ := h.save c.inst next
    exact ⟨hsaved, by simp [Engine.perform, hresult]⟩
  | publish news =>
    obtain ⟨hresult, hpublished⟩ := h.publish (c.notice news)
    exact ⟨hpublished, by simp [Engine.perform, hresult]⟩
  | settle s => exact ⟨h.settle c s, rfl⟩

theorem track (d : DispatcherId) (x : String) (p : PendingDelay) :
    (e.track d x p).Hushes n k (e'.track d x p) := by
  refine { h with pending := ?_ }
  show (e'.pending.filter fun key p => !(key.1 == d && e'.isCancelled p.token)).put (d, x) p =
    (e.pending.filter fun key p => !(key.1 == d && e.isCancelled p.token)).put (d, x) p
  simp only [h.pending, h.isCancelled]

theorem untrack (d : DispatcherId) (x : String) (delay : Nat) :
    (e.untrack d x delay).Hushes n k (e'.untrack d x delay) := by
  unfold Engine.untrack
  rw [h.pending]
  split
  · split
    · exact { h with pending := rfl }
    · exact h
  · exact h

/-- What is started in the one is started in the other. -/
theorem spawn (hn : n < e.next) (τ : Token) (frames : List Frame)
    (hframes : frames.head?.all (fun f => f.receiver? = none)) :
    (e.spawn τ frames).2.Hushes n k (e'.spawn τ (frames.map (Frame.hush k))).2 := by
  refine { h with tasks := ?_, next := congrArg (· + 1) h.next }
  have hnot : Task.awaits k ⟨e.next, τ, false, frames⟩ = false := by
    cases frames with
    | nil => rfl
    | cons f fs =>
      cases f with
      | receiving r j => simp [Frame.receiver?] at hframes
      | _ => rfl
  have hhush : Task.hush n k ⟨e.next, τ, false, frames⟩ =
      ⟨e.next, τ, false, frames.map (Frame.hush k)⟩ := by
    simp [Task.hush, Task.doing, (Nat.ne_of_lt hn).symm]
  have htask : ∀ t : Task, t.awaits k = false →
      ((e.tasks ++ [t]).filter fun t => !t.awaits k).map (Task.hush n k) =
        e'.tasks ++ [t.hush n k] := by
    intro t ht
    rw [List.filter_append, List.map_append, h.tasks, List.filter_cons_of_pos (by simp [ht])]
    rfl
  refine Eq.trans ?_ (htask _ hnot).symm
  rw [hhush, ← h.next]
  rfl

theorem resumeContinuation (hn : n < e.next) (τ : Token) (c : Chain) (next delay : Nat) :
    (e.resumeContinuation τ ⟨c, next, delay⟩).Hushes n k
      (e'.resumeContinuation τ ⟨c.hush k, next, delay⟩) := by
  refine (h.untrack c.dispatcher c.inst delay).spawn ?_ τ
    [.driving .continuation c (.entering next)] rfl
  rw [untrack_eq]
  exact hn

/-- What is due goes off in both. -/
theorem releaseDue (hn : n < e.next) : e.releaseDue.Hushes n k e'.releaseDue := by
  unfold Engine.releaseDue
  have hmode : e'.scheduler.mode = e.scheduler.mode := by rw [h.scheduler]; rfl
  have hclock : e'.scheduler.timers.clock = e.scheduler.timers.clock := by rw [h.scheduler]; rfl
  have hpop : e'.scheduler.timers.pop? e.scheduler.timers.clock =
      (e.scheduler.timers.pop? e.scheduler.timers.clock).map fun popped =>
        (popped.1.hush k, { popped.2 with armed := popped.2.armed.map (Timer.hush k) }) := by
    rw [h.scheduler]
    unfold Timers.pop?
    simp only [Scheduler.hush]
    cases e.scheduler.timers.armed with
    | nil => rfl
    | cons x xs =>
      show (if x.deadline ≤ _ then _ else _) = Option.map _ (if x.deadline ≤ _ then _ else _)
      split <;> rfl
  rw [hmode, hclock, hpop]
  split
  · cases hp : e.scheduler.timers.pop? e.scheduler.timers.clock with
    | none => exact h
    | some p =>
      obtain ⟨x, timers⟩ := p
      refine resumeContinuation (e := { e with scheduler := { e.scheduler with timers } }) ?_ hn
        x.token x.work.chain x.work.next x.work.delay
      refine { h with scheduler := ?_ }
      rw [h.scheduler]
      rfl
  · exact h

/-- A chain is laid to rest in both, or in neither for the same reason. -/
theorem suspend (hn : n < e.next) (c : Chain) (τ : Token) (next : Nat) (due : Instant) :
    (e'.suspend (c.hush k) τ next due).2 = (e.suspend c τ next due).2 ∧
      (e.suspend c τ next due).1.Hushes n k (e'.suspend (c.hush k) τ next due).1 := by
  have hfresh := h.fresh.2
  have htrack := hfresh.track c.dispatcher c.inst ⟨e.next, τ.child e.next⟩
  unfold Engine.suspend
  unfold Engine.fresh at htrack ⊢
  dsimp only [Chain.hush_dispatcher, Chain.hush_inst]
  rw [h.next]
  rw [h.next] at htrack
  have hlt : n < (Engine.track { e with next := e.next + 1 } c.dispatcher c.inst
      ⟨e.next, τ.child e.next⟩).next := Nat.lt_succ_of_lt hn
  generalize Engine.track { e with next := e.next + 1 } _ _ _ = m at htrack hlt ⊢
  generalize Engine.track { e' with next := e.next + 1 } _ _ _ = m' at htrack ⊢
  cases hs : m.scheduler.schedule m.cancelled due (τ.child e.next) ⟨c, next, e.next⟩ with
  | mk scheduler result =>
    have hs' : m'.scheduler.schedule m'.cancelled due (τ.child e.next) ⟨c.hush k, next, e.next⟩ =
        (scheduler.hush k, result) := by
      rw [htrack.scheduler, htrack.cancelled, Scheduler.schedule_hush, hs]
    rw [hs']
    have hscheduled : Hushes n k { m with scheduler } { m' with scheduler := scheduler.hush k } :=
      { htrack with scheduler := rfl }
    cases result with
    | ok _ =>
      refine ⟨rfl, ?_⟩
      have hrecorded := hscheduled.record (.scheduled scheduler.timers.now due none)
      exact hrecorded.releaseDue hlt
    | error error =>
      refine ⟨rfl, ?_⟩
      exact (hscheduled.untrack c.dispatcher c.inst e.next).record
        (.scheduled scheduler.timers.now due (some error))

end

/-! ## Tasks -/

section

variable (h : m.Hushes n k m') {u : Task}
include h

omit h in
/-- Whoever is put in the place of tasks that wait as it does changes nothing in who waits. -/
theorem filter_putTask
    (hsame : ∀ x ∈ m.tasks, x.number = u.number → x.awaits k = u.awaits k) :
    ((m.putTask u).tasks.filter fun t => !t.awaits k) =
      (m.tasks.filter fun t => !t.awaits k).map fun t => if t.number == u.number then u else t := by
  show (m.tasks.map _).filter _ = _
  rw [List.filter_map]
  refine congrArg (List.map _) (List.filter_congr fun x hx => ?_)
  by_cases heq : x.number = u.number
  · simp [heq, hsame x hx heq]
  · simp [heq]

theorem putTask (hu : u.awaits k = false) (hmute : ¬ (k = none ∧ u.number = n))
    (hsame : ∀ x ∈ m.tasks, x.number = u.number → x.awaits k = false) :
    (m.putTask u).Hushes n k (m'.putTask (u.doing (u.frames.map (Frame.hush k)))) := by
  refine { h with tasks := ?_ }
  have hhush : u.hush n k = u.doing (u.frames.map (Frame.hush k)) := by
    rw [Task.hush, if_neg hmute]
  rw [← hhush, filter_putTask fun x hx heq => (hsame x hx heq).trans hu.symm]
  show m'.tasks.map _ = _
  rw [h.tasks, List.map_map, List.map_map]
  refine List.map_congr_left fun x _ => ?_
  show (if (x.hush n k).number == (u.hush n k).number then u.hush n k else x.hush n k) =
    (if x.number == u.number then u else x).hush n k
  by_cases heq : x.number = u.number
  · simp [Task.hush, Task.doing, heq]
  · simp [Task.hush, Task.doing, heq]

/-- Nobody notices that a task that waits for the completion is looked at. -/
theorem putTask_left (hu : u.awaits k = true)
    (hsame : ∀ x ∈ m.tasks, x.number = u.number → x.awaits k = true) :
    (m.putTask u).Hushes n k m' := by
  refine { h with tasks := ?_ }
  rw [filter_putTask fun x hx heq => (hsame x hx heq).trans hu.symm, h.tasks, List.map_map]
  refine List.map_congr_left fun x hx => ?_
  obtain ⟨hmem, hnot⟩ := List.mem_filter.1 hx
  have hne : x.number ≠ u.number := fun heq => by simp [hsame x hmem heq] at hnot
  simp [hne]

theorem filter_tasks (p : Nat → Bool) :
    m'.tasks.filter (fun t => p t.number) =
      ((m.tasks.filter fun t => p t.number).filter fun t => !t.awaits k).map (Task.hush n k) := by
  rw [h.tasks, List.filter_map, List.filter_comm]
  rfl

theorem cut (i : Nat) :
    Hushes n k { m with tasks := m.tasks.filter fun t => t.number != i }
      { m' with tasks := m'.tasks.filter fun t => t.number != i } :=
  { h with tasks := h.filter_tasks fun j => j != i }

theorem endTask (i : Nat) (ending : Ending) :
    (m.endTask i ending).Hushes n k (m'.endTask i ending) := by
  refine { h.cut i with endings := ?_ }
  show (m'.endings ++ _).filter _ = (m.endings ++ _).filter _
  rw [List.filter_append, List.filter_append, h.endings]

/-- How the task of the run ends is left open. -/
theorem part (ending ending' : Ending) :
    (m.endTask n ending).Hushes n k (m'.endTask n ending') := by
  refine { h.cut n with endings := ?_ }
  show (m'.endings ++ _).filter _ = (m.endings ++ _).filter _
  rw [List.filter_append, List.filter_append, h.endings]
  simp

theorem endTask_left (hsame : ∀ x ∈ m.tasks, x.number = n → x.awaits k = true)
    (ending : Ending) : (m.endTask n ending).Hushes n k m' := by
  refine { h with tasks := ?_, endings := ?_ }
  · show m'.tasks = ((m.tasks.filter _).filter _).map _
    rw [h.tasks, List.filter_filter]
    congr 1
    refine List.filter_congr fun x hx => ?_
    by_cases heq : x.number = n
    · simp [heq, hsame x hx heq]
    · simp [heq]
  · show m'.endings.filter _ = (m.endings ++ _).filter _
    rw [List.filter_append, h.endings]
    simp

/-- The call that comes to wait is over in the hushed engine. -/
theorem leave (hu : u.awaits k = true) (hn : u.number = n) (ending' : Ending) :
    (m.putTask u).Hushes n k (m'.endTask n ending') := by
  refine { h with tasks := ?_, endings := ?_ }
  · show m'.tasks.filter _ = ((m.tasks.map _).filter _).map _
    rw [h.filter_tasks fun j => j != n, List.filter_map, List.map_map, List.filter_filter]
    have hfilter : (m.tasks.filter ((fun t : Task => !t.awaits k) ∘
        fun t => if t.number == u.number then u else t)) =
        m.tasks.filter fun t => !t.awaits k && (t.number != n) := by
      refine List.filter_congr fun x _ => ?_
      by_cases heq : x.number = n
      · simp [heq, hn, hu]
      · simp [heq, hn]
    rw [hfilter]
    refine List.map_congr_left fun x hx => ?_
    have hne : x.number ≠ n := by
      have hx := (List.mem_filter.1 hx).2
      simp only [Bool.and_eq_true, bne_iff_ne] at hx
      exact hx.2
    simp [hn, hne]
  · show (m'.endings ++ _).filter _ = m.endings.filter _
    rw [List.filter_append, h.endings]
    simp

end

end Hushes

end Engine

end DurableFlow
