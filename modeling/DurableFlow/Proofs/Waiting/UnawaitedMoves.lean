import DurableFlow.Proofs.Waiting.UnawaitedEngines
import DurableFlow.Proofs.Waiting.AwaitedCompletions
import DurableFlow.Proofs.Settlement.KnownEnds

/-!
# Moves without a caller who waits

A task moves in an engine as it does in the hushed one, unless it is about to wait for the
completion on behalf of its call, or does (`Engine.Hushes.move`). Main statement: what happens to an
engine happens to the hushed one (`Engine.Hushes.act`).
-/

namespace DurableFlow

variable {n : Nat} {k : Option CompletionId}

theorem Task.IsRooted.of_awaits {r : RunnerId} {t : Task} (h : t.IsRooted n r k)
    (ht : t.awaits k = true) :
    ∃ j, k = some j ∧ t.frames = [.receiving r j] ∧ t.number = n := by
  obtain ⟨r', j, below, rfl, hframes⟩ := awaits_iff.1 ht
  obtain ⟨hone, hr, hn⟩ := h.of_top hframes rfl
  obtain rfl : r' = r := Option.some.inj hr
  exact ⟨j, rfl, hone, hn⟩

/-- Two requests that differ at most in whether the caller waits are opened alike. -/
inductive Move.Opens (n : Nat) (k : Option CompletionId) (e : Engine) (t t' : Task)
    (below below' : List Frame) (id : RunnerId) (wait wait' : Bool) : Move → Move → Prop
  | declines {m m' : Engine} (h : m.Hushes n k m') (reply : Reply) :
      Opens n k e t t' below below' id wait wait' (m.answer t below reply)
        (m'.answer t' below' reply)
  | starts {m m' : Engine} {c : Chain} {i : Nat} (h : m.Hushes n k m') (htasks : m.tasks = e.tasks)
      (hscheduler : m.scheduler = e.scheduler) (hnext : m.next = e.next + 1) :
      Opens n k e t t' below below' id wait wait'
        (.on m (t.doing (.driving (.call id (if wait then some ⟨e.next⟩ else none))
          { c with completion := if wait then some ⟨e.next⟩ else none } (.entering i) :: below)))
        (.on m' (t'.doing (.driving (.call id (if wait' then some ⟨e.next⟩ else none))
          { c with completion := if wait' then some ⟨e.next⟩ else none }
          (.entering i) :: below')))

/-- A move of a task, and the one of the hushed task. They differ if the call stops to take its
chain on: then only the one that waits is not over; or it is over, but may be told something
else. -/
inductive Move.Hushes (n : Nat) (k : Option CompletionId) (t : Task) : Move → Move → Prop
  | blocked : Hushes n k t .blocked .blocked
  | on {m m' : Engine} {u : Task} (h : m.Hushes n k m') (hu : u.awaits k = false) :
      Hushes n k t (.on m u) (.on m' (u.doing (u.frames.map (Frame.hush k))))
  | over {m m' : Engine} {ending : Ending} (h : m.Hushes n k m') :
      Hushes n k t (.over m ending) (.over m' ending)
  | leaves {m m' : Engine} {r : RunnerId} {j : CompletionId} {c : Chain} {turn : Turn}
      {result : RunResult} (h : m.Hushes n k m') (hk : k = some j)
      (hframes : t.frames = [.driving (.call r k) c (.acting ⟨[], turn⟩)])
      (hturn : turn = .stop result ∨
        result = Plan.resultOf c.context .delayed ∧ ∃ next due, turn = .suspend next due) :
      Hushes n k t (.on m (t.doing [.receiving r j])) (.over m' (.returned (.ok result)))
  | parts {m m' : Engine} {r : RunnerId} {j : CompletionId} {c : Chain} {fault : Fault}
      (h : m.Hushes n k m') (hk : k = some j)
      (hframes : t.frames = [.driving (.call r k) c (.halting fault)]) :
      Hushes n k t
        (.over m (.returned ((m.settled.get? j).getD (.error (.fault fault)))))
        (.over m' (.returned (.error (.fault fault))))

namespace Engine

variable {e e' m m' : Engine} {r : RunnerId} {t : Task} {below : List Frame} {o : Origin}
  {c : Chain} {i : Nat} {b : Behaviour}

section Receiving

variable {e : Engine} {t : Task} {r : RunnerId} {j : CompletionId} {below : List Frame}
  (hframes : t.frames = .receiving r j :: below)
include hframes

/-- Whoever waits for a completion that is settled goes on with it. -/
theorem moveTop_of_settled {s : Settlement} (hs : e.settled.get? j = some s) :
    e.moveTop t = e.answer t below (.settled s) := by
  simp only [moveTop, hframes, hs]

/-- One that is owed is waited for. -/
theorem moveTop_of_owed (hs : e.settled.get? j = none) (howed : e.isOwed j = true) :
    e.moveTop t = e.park t := by
  simp [moveTop, hframes, hs, howed]

theorem moveTop_of_not_owed (hs : e.settled.get? j = none) (howed : e.isOwed j = false) :
    e.moveTop t = e.refuse t below .cancelled := by
  simp [moveTop, hframes, hs, howed]

end Receiving

namespace Hushes

section

variable (h : e.Hushes n k e') (hr : e.IsRooted n r k)
include h hr

/-! ## What a task sees of its engine -/

omit hr in
/-- What the frames of tasks are asked for is found in both, unless a task that waits has it. -/
theorem any_frames {p q : Frame → Bool} (hhush : ∀ f : Frame, q (f.hush k) = p f)
    (hmute : ∀ f : Frame, q f.mute = p f)
    (hawaits : ∀ t ∈ e.tasks, t.awaits k = true → ∀ f ∈ t.frames, p f = false) :
    (e'.tasks.any fun t => t.frames.any q) = e.tasks.any fun t => t.frames.any p := by
  have hframe : ∀ (t : Task) (f : Frame),
      q ((if k = none ∧ t.number = n then Frame.mute else Frame.hush k) f) = p f := by
    intro t f
    split
    · exact hmute f
    · exact hhush f
  have htask : ∀ t : Task, ((t.hush n k).frames.any q) = t.frames.any p := by
    intro t
    show ((t.frames.map _).any q) = _
    rw [List.any_map]
    exact congrArg t.frames.any (funext (hframe t))
  rw [Bool.eq_iff_iff, List.any_eq_true, List.any_eq_true, h.tasks]
  constructor
  · rintro ⟨t', ht', hany⟩
    obtain ⟨t, ht, rfl⟩ := List.mem_map.1 ht'
    exact ⟨t, List.mem_of_mem_filter ht, htask t ▸ hany⟩
  · rintro ⟨t, ht, hany⟩
    have hnot : t.awaits k = false := by
      rw [Bool.eq_false_iff]
      intro haw
      obtain ⟨f, hf, hpf⟩ := List.any_eq_true.1 hany
      cases (hawaits t ht haw f hf).symm.trans hpf
    exact ⟨t.hush n k, List.mem_map_of_mem (List.mem_filter.2 ⟨ht, by simp [hnot]⟩),
      (htask t).trans hany⟩

/-- Other completions are owed in both. -/
theorem isOwed_eq {j : CompletionId} (hj : some j ≠ k) : e'.isOwed j = e.isOwed j := by
  have htasks := h.any_frames (p := fun f => f.owed? == some j) (q := fun f => f.owed? == some j)
    (fun f => by rw [Bool.eq_iff_iff, beq_iff_eq, beq_iff_eq, Frame.hush_owed hj])
    (fun f => by rw [Frame.mute_owed])
    (fun t ht haw f hf => by
      obtain ⟨i, -, hframes, -⟩ := (hr.tasks t ht).of_awaits haw
      rw [hframes, List.mem_singleton] at hf
      rw [hf]
      rfl)
  have htimers : (e'.scheduler.continuations.any fun κ => κ.chain.completion == some j) =
      e.scheduler.continuations.any fun κ => κ.chain.completion == some j := by
    rw [h.scheduler]
    simp only [Scheduler.continuations, Scheduler.hush, List.map_map, List.any_map]
    refine congrArg e.scheduler.timers.armed.any (funext fun x => ?_)
    show ((x.work.chain.hush k).completion == some j) = (x.work.chain.completion == some j)
    rw [Bool.eq_iff_iff, beq_iff_eq, beq_iff_eq, Chain.hush_completion_eq_some hj]
  rw [isOwed, isOwed, htasks, htimers]

/-- A runner is there in both: a call that waits keeps only that of the run alive. -/
theorem isAlive_eq (r' : RunnerId) : e'.isAlive r' = e.isAlive r' := by
  rw [isAlive, isAlive, h.held]
  by_cases hr' : r' = r
  · have hheld : e.held.contains r' = true := List.contains_iff_mem.2 (hr' ▸ hr.held)
    rw [hheld, Bool.true_or, Bool.true_or]
  · rw [h.any_frames (p := fun f => f.runner? == some r') (fun f => by rw [Frame.hush_runner])
      (fun f => by rw [Frame.mute_runner])]
    intro t ht haw f hf
    obtain ⟨i, -, hframes, -⟩ := (hr.tasks t ht).of_awaits haw
    rw [hframes, List.mem_singleton] at hf
    rw [hf]
    exact beq_eq_false_iff_ne.2 fun heq => hr' (Option.some.inj heq).symm

omit hr in
theorem isSignalled_eq (τ : Token) (signal : Signal) :
    e'.isSignalled τ signal = e.isSignalled τ signal := by
  cases signal with
  | gate name => simp only [isSignalled, h.gates]
  | cancellation => exact h.isCancelled τ

theorem isReady_eq {S : Standard} (ht : t.Sound S) (haw : t.awaits k = false) :
    e'.isReady (t.doing (t.frames.map (Frame.hush k))) = e.isReady t := by
  unfold isReady
  cases hframes : t.frames with
  | nil => rfl
  | cons f below =>
    cases f with
    | opening r q resuming => rfl
    | driving o c stage =>
      cases stage with
      | inside i b =>
        cases b with
        | await context signal rest => exact h.isSignalled_eq t.token signal
        | _ => rfl
      | _ => rfl
    | receiving r j =>
      have hj : some j ≠ k := by
        rintro rfl
        simp [Task.awaits, hframes] at haw
      show (e'.settled.contains j || !e'.isOwed j) = (e.settled.contains j || !e.isOwed j)
      rw [h.isOwed_eq hr hj, Table.contains, h.settled j hj]
      rfl
    | listening j => exact (ht.frames (.listening j) (hframes ▸ List.mem_cons_self)).elim

end

/-! ## Moves -/

theorem answer (h : m.Hushes n k m') (t u : Task) (fs below : List Frame) (reply : Reply) :
    (m.answer t below reply).Hushes n k u
      (m'.answer (t.doing fs) (below.map (Frame.hush k)) reply) := by
  unfold Engine.answer
  cases below with
  | nil => cases reply <;> exact .over h
  | cons f rest =>
    cases f with
    | driving o c stage =>
      cases stage with
      | calling i next =>
        exact .on (u := t.doing (.driving o c (.inside i (next reply)) :: rest)) h rfl
      | _ => cases reply <;> exact .over h
    | _ => cases reply <;> exact .over h

theorem finish (h : m.Hushes n k m') (ht : t.IsRooted n r k) {turn : Turn} {result : RunResult}
    (hframes : t.frames = .driving o c (.acting ⟨[], turn⟩) :: below)
    (hturn : turn = .stop result ∨
      result = Plan.resultOf c.context .delayed ∧ ∃ next due, turn = .suspend next due)
    (fs : List Frame) :
    (m.finish t below o result).Hushes n k t
      (m'.finish (t.doing fs) (below.map (Frame.hush k)) (o.hush k) result) := by
  cases o with
  | call r' receiver =>
    cases receiver with
    | none => exact h.answer t t fs below _
    | some j =>
      by_cases hj : some j = k
      · subst hj
        obtain ⟨hone, -⟩ := ht.of_top hframes rfl
        obtain rfl : below = [] := by simpa [hone] using hframes.symm
        rw [Origin.hush_of_eq]
        exact .leaves h rfl hone hturn
      · rw [Origin.hush_of_ne r' hj]
        refine .on (u := t.doing (.receiving r' j :: below)) h ?_
        simp [Task.awaits, Task.doing, hj]
  | direct => exact h.answer t t fs below _
  | continuation => exact h.answer t t fs below _

theorem halt (h : e.Hushes n k e') (ht : t.IsRooted n r k) {fault : Fault}
    (hframes : t.frames = .driving o c (.halting fault) :: below) (fs : List Frame) :
    (e.halt t below o c fault).Hushes n k t
      (e'.halt (t.doing fs) (below.map (Frame.hush k)) (o.hush k) (c.hush k) fault) := by
  cases o with
  | call r' receiver =>
    cases receiver with
    | none => exact h.answer t t fs below _
    | some j =>
      by_cases hj : some j = k
      · subst hj
        obtain ⟨hone, -⟩ := ht.of_top hframes rfl
        obtain rfl : below = [] := by simpa [hone] using hframes.symm
        rw [Origin.hush_of_eq]
        exact .parts h rfl hone
      · rw [Origin.hush_of_ne r' hj]
        simp only [Engine.halt, h.settled j hj]
        exact h.answer t t fs below _
  | direct => exact h.answer t t fs below _
  | continuation => exact (h.settle c _).answer t t fs below _

theorem tearDown (h : m.Hushes n k m') (t u : Task) (fs below : List Frame) (o : Origin) (c : Chain)
    (payload : Panic) :
    (m.tearDown t below o c payload).Hushes n k u
      (m'.tearDown (t.doing fs) (below.map (Frame.hush k)) (o.hush k) (c.hush k) payload) := by
  cases o with
  | call r receiver =>
    cases receiver with
    | none => exact h.answer t u fs below _
    | some j =>
      by_cases hj : some j = k
      · subst hj
        rw [Origin.hush_of_eq]
        exact h.answer t u fs below _
      · rw [Origin.hush_of_ne r hj]
        exact h.answer t u fs below _
  | direct => exact h.answer t u fs below _
  | continuation => exact (h.record (.tornDown c.inst payload)).answer t u fs below _

/-- A task that takes its chain on, in both engines. -/
theorem go (h : m.Hushes n k m') (t u : Task) (fs below : List Frame) (o : Origin) (c : Chain)
    (stage : Stage) :
    (Move.on m (t.doing (.driving o c stage :: below))).Hushes n k u
      (.on m' ((t.doing fs).doing
        (.driving (o.hush k) (c.hush k) stage :: below.map (Frame.hush k)))) :=
  .on (u := t.doing (.driving o c stage :: below)) h rfl

theorem abandon_hush (t : Task) :
    Engine.abandon (t.doing (t.frames.map (Frame.hush k))) =
      (Engine.abandon t).map fun u => u.doing (u.frames.map (Frame.hush k)) := by
  have hlast : (t.doing (t.frames.map (Frame.hush k))).frames.getLast? =
      t.frames.getLast?.map (Frame.hush k) := List.getLast?_map ..
  unfold Engine.abandon
  rw [hlast]
  cases t.frames.getLast? with
  | none => rfl
  | some f =>
    cases f with
    | driving o c stage =>
      dsimp only [Option.map_some, Frame.hush]
      split <;> rfl
    | _ => rfl

section

variable (h : e.Hushes n k e') (hr : e.IsRooted n r k)
include h hr

theorem moveInside (ht : t.frames = .driving o c (.inside i b) :: below) :
    (e.moveInside t below o c i b).Hushes n k t
      (e'.moveInside (t.doing (t.frames.map (Frame.hush k))) (below.map (Frame.hush k)) (o.hush k)
        (c.hush k) i b) := by
  cases b with
  | finish context outcome =>
    have hsame : Plan.ofOutcome (c.hush k).definition context i e'.now outcome =
        Plan.ofOutcome c.definition context i e.now outcome := by rw [h.now]; rfl
    simp only [Engine.moveInside, hsame]
    cases Plan.ofOutcome c.definition context i e.now outcome with
    | ok plan => exact h.go t t _ below o { c with context } _
    | error fault => exact h.go t t _ below o { c with context } _
  | panic context payload => exact h.tearDown t t _ below o c payload
  | emit emission rest => exact (h.record _).go t t _ below o c _
  | cancel rest => exact (h.cancel _).go t t _ below o c _
  | await context signal rest =>
    simp only [Engine.moveInside]
    rw [show (t.doing (t.frames.map (Frame.hush k))).token = t.token from rfl, h.isSignalled_eq]
    split
    · exact h.go t t _ below o c _
    · refine .on (u := { t with parked := true }) h ?_
      simp [Task.awaits, ht]
  | locate runner next =>
    simp only [Engine.moveInside, h.isAlive_eq hr]
    exact h.go t t _ below o c _
  | launch context runner request next =>
    exact .on (u := t.doing
      (.opening runner request false :: .driving o c (.calling i next) :: below)) h rfl

theorem moveActing (hrooted : t.IsRooted n r k) {plan : Plan}
    (ht : t.frames = .driving o c (.acting plan) :: below) :
    (e.moveActing t below o c plan).Hushes n k t
      (e'.moveActing (t.doing (t.frames.map (Frame.hush k))) (below.map (Frame.hush k)) (o.hush k)
        (c.hush k) plan) := by
  obtain ⟨effects, turn⟩ := plan
  cases effects with
  | cons effect es =>
    obtain ⟨hperformed, hresult⟩ := h.perform c effect
    simp only [Engine.moveActing, hresult]
    cases (e.perform c effect).2.2 with
    | ok _ => exact hperformed.go t t _ below o _ _
    | error fault => exact hperformed.go t t _ below o _ _
  | nil =>
    cases turn with
    | arrive index => exact h.go t t _ below o c _
    | stop result => exact h.finish hrooted ht (.inl rfl) _
    | suspend next due =>
      obtain ⟨hresult, hlaid⟩ := h.suspend hr.number_lt c t.token next due
      simp only [Engine.moveActing]
      rw [show (t.doing (t.frames.map (Frame.hush k))).token = t.token from rfl, hresult]
      cases (e.suspend c t.token next due).2 with
      | ok _ => exact hlaid.finish hrooted ht (.inr ⟨rfl, next, due, rfl⟩) _
      | error fault => exact hlaid.go t t _ below o c _

theorem moveDriving (hrooted : t.IsRooted n r k) {stage : Stage}
    (ht : t.frames = .driving o c stage :: below) :
    (e.moveDriving t below o c stage).Hushes n k t
      (e'.moveDriving (t.doing (t.frames.map (Frame.hush k))) (below.map (Frame.hush k)) (o.hush k)
        (c.hush k) stage) := by
  cases stage with
  | entering index =>
    simp only [Engine.moveDriving, Chain.hush_definition]
    cases c.definition.step? index with
    | none => exact h.go t t _ below o c _
    | some step =>
      dsimp only
      rw [show (t.doing (t.frames.map (Frame.hush k))).token = t.token from rfl, h.isCancelled]
      split
      · exact h.go t t _ below o c _
      · exact (h.record _).go t t _ below o c _
  | inside index b => exact h.moveInside hr ht
  | calling index next => exact .blocked
  | acting plan => exact h.moveActing hr hrooted ht
  | halting fault => exact h.halt hrooted ht _

omit hr in
theorem opens (t t' : Task) (below below' : List Frame) (id : RunnerId) (q : Request)
    (wait resuming : Bool) :
    Move.Opens n k e t t' below below' id q.wait wait (e.moveOpening t below id q resuming)
      (e'.moveOpening t' below' id { q with wait } resuming) := by
  unfold Engine.moveOpening
  rw [h.runners]
  cases e.runners.get? id with
  | none => exact .declines h _
  | some runner =>
    dsimp only
    cases runner.registry.find? q.workflow with
    | none => exact .declines h _
    | some d =>
      obtain ⟨hinst, hidentified⟩ := h.identify q
      have hsame : e'.identify { q with wait } = e'.identify q := rfl
      have hkept : ((e.identify q).2.load (e.identify q).1).1.tasks = e.tasks ∧
          ((e.identify q).2.load (e.identify q).1).1.scheduler = e.scheduler ∧
          ((e.identify q).2.load (e.identify q).1).1.next = e.next := by
        unfold Engine.identify
        split <;> exact ⟨rfl, rfl, rfl⟩
      dsimp only
      rw [hsame, hinst]
      obtain ⟨hfound, hloaded⟩ := hidentified.load (e.identify q).1
      generalize (e.identify q).2.load (e.identify q).1 = l at hfound hloaded hkept ⊢
      generalize (e'.identify q).2.load (e.identify q).1 = l' at hfound hloaded ⊢
      rw [hfound]
      split
      · exact .declines hloaded _
      · exact .declines hloaded _
      · have hseed : seed id runner d (e.identify q).1 { q with wait } =
            seed id runner d (e.identify q).1 q := rfl
        rw [hseed]
        have hseeded := hloaded.emit (seed id runner d (e.identify q).1 q).emissions
        obtain ⟨journal, hjournal⟩ :=
          foldl_record l.1 (seed id runner d (e.identify q).1 q).emissions
        split
        · exact .declines hseeded _
        · obtain ⟨hnumber, hdrawn⟩ := hseeded.fresh
          rw [hjournal] at hnumber hdrawn ⊢
          obtain ⟨htasks, hscheduler, hnext⟩ := hkept
          have hfirst : ({ l.1 with journal } : Engine).fresh.1 = e.next := hnext
          simp only [hnumber, hfirst]
          exact .starts (c := ⟨d, (seed id runner d (e.identify q).1 q).context,
            runner.dispatcher, none, e.next⟩) hdrawn htasks hscheduler (congrArg (· + 1) hnext)

theorem moveOpening (t : Task) (fs below : List Frame) (id : RunnerId) (q : Request)
    (resuming : Bool) :
    (e.moveOpening t below id q resuming).Hushes n k t
      (e'.moveOpening (t.doing fs) (below.map (Frame.hush k)) id q resuming) := by
  have hopens := h.opens t (t.doing fs) below (below.map (Frame.hush k)) id q q.wait resuming
  have hsame : ({ q with wait := q.wait } : Request) = q := rfl
  rw [hsame] at hopens
  generalize e.moveOpening t below id q resuming = μ at hopens ⊢
  generalize e'.moveOpening (t.doing fs) (below.map (Frame.hush k)) id q resuming = μ' at hopens ⊢
  cases hopens with
  | declines hm reply => exact hm.answer t t fs below reply
  | @starts m m' c i hm htasks hscheduler hnext =>
    -- The completion that is drawn is another one.
    have hother : ∀ j : CompletionId, some j = k → j ≠ ⟨e.next⟩ := by
      rintro j hj rfl
      exact absurd (hr.lt_next _ hj.symm) (Nat.lt_irrefl _)
    have hgo := hm.go t t fs below (.call id (if q.wait then some ⟨e.next⟩ else none))
      { c with completion := if q.wait then some ⟨e.next⟩ else none } (.entering i)
    cases hwait : q.wait with
    | false => simpa [hwait, Chain.hush, Option.filter] using hgo
    | true =>
      have hne : some (⟨e.next⟩ : CompletionId) ≠ k := fun heq => hother _ heq rfl
      simpa [hwait, Origin.hush_of_ne id hne, Chain.hush, Option.filter, hne] using hgo

/-- **A task that has nothing to ask for takes its move in both.** -/
theorem moveTop {S : Standard} (hrooted : t.IsRooted n r k) (hsound : t.Sound S)
    (haw : t.awaits k = false) :
    (e.moveTop t).Hushes n k t (e'.moveTop (t.doing (t.frames.map (Frame.hush k)))) := by
  cases hframes : t.frames with
  | nil =>
    have hmove : e.moveTop t = .over e (.heard none) := by simp only [Engine.moveTop, hframes]
    rw [hmove]
    exact .over h
  | cons f below =>
    cases f with
    | opening runner q resuming =>
      have hmove : e.moveTop t = e.moveOpening t below runner q resuming :=
        Engine.moveTop_opening hframes
      rw [hmove]
      exact h.moveOpening hr t _ below runner q resuming
    | driving o c stage =>
      have hmove : e.moveTop t = e.moveDriving t below o c stage :=
        Engine.moveTop_driving hframes
      have hboth := h.moveDriving hr hrooted hframes
      rw [hframes] at hboth
      rw [hmove]
      exact hboth
    | receiving r' j =>
      have hj : some j ≠ k := by
        rintro rfl
        simp [Task.awaits, hframes] at haw
      have hsettled := h.settled j hj
      have howed := h.isOwed_eq hr hj
      have hframes' : (t.doing ((Frame.receiving r' j :: below).map (Frame.hush k))).frames =
          .receiving r' j :: below.map (Frame.hush k) := rfl
      cases hs : e.settled.get? j with
      | some s =>
        rw [moveTop_of_settled hframes hs, moveTop_of_settled hframes' (hsettled.trans hs)]
        exact h.answer t t _ below _
      | none =>
        cases howes : e.isOwed j with
        | true =>
          rw [moveTop_of_owed hframes hs howes,
            moveTop_of_owed hframes' (hsettled.trans hs) (howed.trans howes), ← hframes]
          exact .on (u := { t with parked := true }) h haw
        | false =>
          rw [moveTop_of_not_owed hframes hs howes,
            moveTop_of_not_owed hframes' (hsettled.trans hs) (howed.trans howes)]
          exact h.answer t t _ below _
    | listening j => exact (hsound.frames (.listening j) (hframes ▸ List.mem_cons_self)).elim

theorem move {S : Standard} (hrooted : t.IsRooted n r k) (hsound : t.Sound S)
    (haw : t.awaits k = false) :
    (e.move t).Hushes n k t (e'.move (t.doing (t.frames.map (Frame.hush k)))) := by
  unfold Engine.move
  cases hp : t.parked with
  | false =>
    rw [show (t.doing (t.frames.map (Frame.hush k))).parked = t.parked from rfl, hp]
    exact h.moveTop hr hrooted hsound haw
  | true =>
    rw [show (t.doing (t.frames.map (Frame.hush k))).parked = t.parked from rfl, hp]
    rw [show (t.doing (t.frames.map (Frame.hush k))).token = t.token from rfl, h.isCancelled,
      h.isReady_eq hr hsound haw, abandon_hush]
    have habandon : ∀ u, Engine.abandon t = some u → u.awaits k = false := by
      intro u hu
      obtain ⟨_, _, _, _, -, -, rfl⟩ := Engine.abandon_eq_some hu
      rfl
    have hlook : Move.Hushes n k t
        (if e.isReady t = true then .on e { t with parked := false } else .blocked)
        (if e.isReady t = true then
          .on e' { t.doing (t.frames.map (Frame.hush k)) with parked := false } else .blocked) := by
      split
      · exact .on (u := { t with parked := false }) h haw
      · exact .blocked
    cases hc : e.isCancelled t.token with
    | false => exact hlook
    | true =>
      cases hu : Engine.abandon t with
      | none => exact hlook
      | some u => exact .on h (habandon u hu)

end

end Hushes

/-- A task that waits for a completion goes on waiting, or is told and over. -/
theorem move_of_awaits {j : CompletionId} (ht : t.frames = [.receiving r j]) :
    e.move t = .blocked ∨ (∃ parked, e.move t = .on e { t with parked }) ∨
      ∃ s, e.move t = .over e (.returned s) := by
  have habandon : abandon t = none := by simp [abandon, ht]
  cases hp : t.parked with
  | true =>
    cases hready : e.isReady t with
    | true => exact .inr (.inl ⟨false, by simp [move, hp, habandon, hready]⟩)
    | false => exact .inl (by simp [move, hp, habandon, hready])
  | false =>
    have hmove : e.move t = e.moveTop t := move_of_unparked hp
    rw [hmove]
    cases hs : e.settled.get? j with
    | some s => exact .inr (.inr ⟨_, moveTop_of_settled ht hs⟩)
    | none =>
      cases howes : e.isOwed j with
      | true => exact .inr (.inl ⟨true, moveTop_of_owed ht hs howes⟩)
      | false => exact .inr (.inr ⟨_, moveTop_of_not_owed ht hs howes⟩)

namespace Hushes

/-! ## Acts -/

theorem task?_eq {S : Standard} (h : e.Hushes n k e') (hs' : e'.Sound S) (ht : t ∈ e.tasks)
    (haw : t.awaits k = false) : e'.task? t.number = some (t.hush n k) := by
  refine hs'.task?_of_mem (t := t.hush n k) ?_
  rw [h.tasks]
  exact List.mem_map_of_mem (List.mem_filter.2 ⟨ht, by simp [haw]⟩)

theorem task?_eq_none (h : e.Hushes n k e') {i : Nat}
    (hnone : ∀ t ∈ e.tasks, t.number = i → t.awaits k = true) : e'.task? i = none := by
  refine List.find?_eq_none.2 fun t' ht' => ?_
  rw [h.tasks] at ht'
  obtain ⟨t, ht, rfl⟩ := List.mem_map.1 ht'
  obtain ⟨hmem, hnot⟩ := List.mem_filter.1 ht
  intro heq
  have hnumber : t.number = i := beq_iff_eq.1 heq
  simp [hnone t hmem hnumber] at hnot

theorem getElem?_armed (h : e.Hushes n k e') (place : Nat) :
    e'.scheduler.timers.armed[place]? =
      (e.scheduler.timers.armed[place]?).map (Timer.hush k) := by
  rw [h.scheduler]
  exact List.getElem?_map ..

theorem disarm (h : e.Hushes n k e') (place : Nat) :
    (e.disarm place).Hushes n k (e'.disarm place) := by
  refine { h with scheduler := ?_ }
  simp only [Engine.disarm, withTimers, h.scheduler, Scheduler.hush, List.eraseIdx_map]

section

variable {S : Standard} (h : e.Hushes n k e') (hr : e.IsRooted n r k) (hs : e.Sound S)
include h hr hs

/-- In the hushed engine there is nothing to do for a call that waits. -/
theorem advance_awaiting {t : Task} (ht : e.task? t.number = some t) (haw : t.awaits k = true) :
    (e.act (.advance t.number)).Hushes n k (e'.act (.advance t.number)) := by
  obtain ⟨hmem, -⟩ := task?_eq_some ht
  have honly : ∀ x ∈ e.tasks, x.number = t.number → x.awaits k = true := fun x hx hnumber =>
    List.inj_on_of_nodup_map hs.numbers hx hmem hnumber ▸ haw
  have hact' : e'.act (.advance t.number) = e' := Engine.act_advance_none (h.task?_eq_none honly)
  obtain ⟨j, rfl, hframes, hn⟩ := (hr.tasks t hmem).of_awaits haw
  rw [hact']
  obtain hmove | ⟨parked, hmove⟩ | ⟨s, hmove⟩ := move_of_awaits (e := e) hframes
  · have hact : e.act (.advance t.number) = e := Engine.act_advance_blocked ht hmove
    rw [hact]
    exact h
  · have hact : e.act (.advance t.number) = e.putTask { t with parked } :=
      Engine.act_advance_on ht hmove
    rw [hact]
    exact h.putTask_left haw honly
  · have hact : e.act (.advance t.number) = e.endTask t.number (.returned s) :=
      Engine.act_advance_over ht hmove
    rw [hact, hn]
    exact h.endTask_left (fun x hx hnumber => honly x hx (hnumber.trans hn.symm)) _

/-- A task takes its move in both engines. -/
theorem advance_other (hs' : e'.Sound S) {t : Task} (ht : e.task? t.number = some t)
    (haw : t.awaits k = false) (hmute : ¬ (k = none ∧ t.number = n)) :
    (e.act (.advance t.number)).Hushes n k (e'.act (.advance t.number)) := by
  obtain ⟨hmem, -⟩ := task?_eq_some ht
  have ht' := h.task?_eq hs' hmem haw
  have hhush : t.hush n k = t.doing (t.frames.map (Frame.hush k)) := by
    rw [Task.hush, if_neg hmute]
  have hmoves := h.move hr (hr.tasks t hmem) (hs.tasks t hmem) haw
  rw [← hhush] at hmoves
  have hturned := turned_move (e := e) (hs.tasks t hmem)
  simp only [Engine.act, Engine.advance, ht, ht']
  generalize e.move t = μ at hmoves hturned ⊢
  generalize e'.move (t.hush n k) = μ' at hmoves ⊢
  -- A task that has started meanwhile does not wait.
  have honly : ∀ {m : Engine} {rested woken}, e.Stirs rested woken m → ∀ x ∈ m.tasks,
      x.number = t.number → x.awaits k = false := by
    intro m rested woken hstirs x hx hnumber
    rw [hstirs.tasks] at hx
    rcases List.mem_append.1 hx with hx | hx
    · exact List.inj_on_of_nodup_map hs.numbers hx hmem hnumber ▸ haw
    · obtain ⟨timer, -, rfl⟩ := List.mem_map.1 hx
      rfl
  cases hmoves with
  | blocked => exact h
  | @on m m' u hm hu =>
    obtain ⟨rested, woken, hstirs, -, hnumber, -⟩ := hturned
    refine hm.putTask hu (hnumber ▸ hmute) fun x hx hx' => ?_
    exact honly hstirs x hx (hx'.trans hnumber)
  | «over» hm => exact hm.endTask t.number _
  | @leaves m m' r' j c turn result hm hk hframes hturn =>
    subst hk
    obtain ⟨-, -, hn⟩ := (hr.tasks t hmem).of_top hframes rfl
    show Hushes n (some j) (m.putTask (t.doing [.receiving r' j]))
      (m'.endTask t.number (.returned (.ok result)))
    rw [hn]
    refine hm.leave (u := t.doing [.receiving r' j]) ?_ hn _
    simp [Task.awaits, Task.doing]
  | @parts m m' r' j c fault hm hk hframes =>
    subst hk
    obtain ⟨-, -, hn⟩ := (hr.tasks t hmem).of_top hframes rfl
    show Hushes n (some j) (m.endTask t.number _) (m'.endTask t.number _)
    rw [hn]
    exact hm.part _ _

/-- **What happens to an engine happens to the hushed engine.** -/
theorem act (hs' : e'.Sound S) (a : Act)
    (hmute : k = none → a = .advance n → e.task? n = none) :
    (e.act a).Hushes n k (e'.act a) := by
  have hn := hr.number_lt
  cases a with
  | advance i =>
    cases ht : e.task? i with
    | none =>
      have hnone : ∀ t ∈ e.tasks, t.number = i → t.awaits k = true := by
        intro t hmem hnumber
        exact absurd (beq_iff_eq.2 hnumber) (List.find?_eq_none.1 ht t hmem)
      have hact : e.act (.advance i) = e := Engine.act_advance_none ht
      have hact' : e'.act (.advance i) = e' := Engine.act_advance_none (h.task?_eq_none hnone)
      rw [hact, hact']
      exact h
    | some t =>
      obtain ⟨-, rfl⟩ := task?_eq_some ht
      cases haw : t.awaits k with
      | true => exact h.advance_awaiting hr hs ht haw
      | false =>
        refine h.advance_other hr hs hs' ht haw ?_
        rintro ⟨rfl, hn⟩
        have hnone := hmute rfl (congrArg Act.advance hn)
        rw [← hn, ht] at hnone
        cases hnone
  | run r' τ q => exact h.spawn hn τ [.opening r' q false] rfl
  | resume r' τ workflow inst event =>
    exact h.spawn hn τ
      [.opening r' { workflow, inst := some inst, event := some event } true] rfl
  | wake place =>
    simp only [Engine.act, h.getElem?_armed place]
    cases e.scheduler.timers.armed[place]? with
    | none => exact h
    | some x => exact (h.disarm place).resumeContinuation hn x.token x.work.chain _ _
  | drop place => exact h.disarm place
  | cut i => exact h.cut i
  | cancel τ => exact h.cancel τ
  | cancelDelay d x =>
    simp only [Engine.act, Engine.cancelDelay, h.pending]
    cases e.pending.get? (d, x) with
    | none => exact h
    | some p => exact { h with pending := rfl, cancelled := congrArg (p.token :: ·) h.cancelled }
  | openGate name => exact { h with gates := congrArg (name :: ·) h.gates }
  | pass millis =>
    refine { h with scheduler := ?_ }
    simp only [Engine.act, withTimers, h.scheduler]
    rfl
  | mint => exact { h with next := congrArg (· + 1) h.next }
  | addRunner registry services =>
    simp only [Engine.act, Engine.addRunner, h.next, h.runners, h.held]
    exact { h with next := rfl, runners := rfl, held := rfl }
  | releaseRunner r' =>
    exact { h with held := congrArg (List.filter fun x => x != r') h.held }

end

end Hushes

end Engine

end DurableFlow
