import DurableFlow.Proofs.Soundness.Accounts
import DurableFlow.Proofs.Soundness.SoundEngines

/-!
# Frames of a task

While a task moves, its frames stand apart from those of the others. Here is what the operations of
an engine do to its account then, when a move fits an account (`Move.Fits`), and what is needed of
an engine that is about to take on a task with some frames (`Engine.Holds`). Continuations that go
off in the midst of a move leave the other tasks alone (`Holds.releaseDue`).
-/

namespace DurableFlow

/-- A continuation is armed at its deadline, or the timers stay as they are. -/
theorem Scheduler.schedule_cases (s : Scheduler) (cancelled : List Token)
    (due : Instant) (token : Token) (k : Continuation) :
    ((s.schedule cancelled due token k).2 = .ok () ∧
      (s.schedule cancelled due token k).1.timers.start = s.timers.start ∧
      (s.schedule cancelled due token k).1.timers.clock = s.timers.clock ∧
      (s.schedule cancelled due token k).1.timers.armed.Perm
        (⟨s.timers.deadline due, token, k⟩ :: s.timers.armed)) ∨
    ∃ error, (s.schedule cancelled due token k).2 = .error error ∧
      (s.schedule cancelled due token k).1.timers = s.timers := by
  unfold Scheduler.schedule
  dsimp only
  split
  · exact .inr ⟨_, rfl, rfl⟩
  · split
    · exact .inr ⟨_, rfl, rfl⟩
    · split
      · exact .inr ⟨_, rfl, rfl⟩
      · exact .inl ⟨rfl, rfl, rfl, Timers.place_perm _ _⟩
      · exact .inl ⟨rfl, rfl, rfl, List.perm_append_singleton _ _⟩

namespace Engine

variable {S : Standard} {e : Engine} {F : List Frame}

/-! ## Accounts of engines -/

/-- The frames of all tasks but the one of a number. -/
def others (e : Engine) (n : Nat) : List Frame :=
  (e.tasks.filter fun t => t.number != n).flatMap Task.frames

theorem accountOf_perm (e : Engine) {F F' : List Frame} (h : F.Perm F') :
    e.accountOf F = e.accountOf F' := by
  have hstrands : (F.filterMap Frame.strand? : Multiset Strand) = F'.filterMap Frame.strand? :=
    Multiset.coe_eq_coe.2 (h.filterMap _)
  have hwaiting : (F.filterMap Frame.awaited? : Multiset CompletionId) =
      F'.filterMap Frame.awaited? := Multiset.coe_eq_coe.2 (h.filterMap _)
  simp only [accountOf, hstrands, hwaiting]

theorem strands_driving (e : Engine) (o : Origin) (c : Chain) (stage : Stage) (F : List Frame) :
    (e.accountOf (.driving o c stage :: F)).strands =
      ⟨o, c, stage.phase⟩ ::ₘ (e.accountOf F).strands := by
  simp only [accountOf, List.filterMap_cons, Frame.strand?]
  rw [← Multiset.cons_coe, Multiset.cons_add]

theorem accountOf_receiving (e : Engine) (r : RunnerId) (k : Option CompletionId)
    (F : List Frame) :
    e.accountOf (k.toList.map (Frame.receiving r) ++ F) = { e.accountOf F with
      waiting := k.toList + (e.accountOf F).waiting } := by
  cases k with
  | none => simp only [Option.toList_none, Multiset.coe_nil, Multiset.zero_add]; rfl
  | some k => rfl

/-- Only the phase of a stage counts. -/
theorem accountOf_stage (e : Engine) (o : Origin) (c : Chain) {stage stage' : Stage}
    (h : stage.phase = stage'.phase) (F : List Frame) :
    e.accountOf (.driving o c stage :: F) = e.accountOf (.driving o c stage' :: F) := by
  simp only [accountOf, List.filterMap_cons, Frame.strand?, Frame.awaited?, h]

theorem accountOf_load (e : Engine) (inst : String) (F : List Frame) :
    (e.load inst).1.accountOf F = e.accountOf F := by
  simp only [accountOf, position_load]
  rfl

theorem accountOf_save_of_ok {inst : String} {next : Nat} (h : (e.save inst next).2 = .ok ())
    (F : List Frame) :
    (e.save inst next).1.accountOf F =
      { e.accountOf F with position := Function.update e.position inst next } := by
  simp only [accountOf, position_save_of_ok h]
  rfl

theorem accountOf_save_of_error {inst : String} {next : Nat} {err : StoreError}
    (h : (e.save inst next).2 = .error err) (F : List Frame) :
    (e.save inst next).1.accountOf F = e.accountOf F := by
  simp only [accountOf, position_save_of_error h]
  rfl

/-- Notices are counted and entered into the journal. -/
theorem publish_eq (e : Engine) (notice : Notice) : (e.publish notice).1 =
    { e with notices := e.notices + 1, journal := (e.publish notice).1.journal } := by
  unfold publish
  dsimp only
  split <;> rfl

theorem accountOf_publish (e : Engine) (notice : Notice) (F : List Frame) :
    (e.publish notice).1.accountOf F = e.accountOf F := by
  rw [publish_eq]
  rfl

theorem accountOf_settle (e : Engine) (k : Option CompletionId) (s : Settlement) (F : List Frame) :
    (e.settle k s).accountOf F =
      { e.accountOf F with settled := (e.accountOf F).settle k s } := by
  cases k with
  | none => rfl
  | some k =>
    have hput : (e.settled.put k s).get? = Function.update e.settled.get? k (some s) := by
      funext k'
      rw [Table.get?_put, Function.update_apply]
    simp only [settle, accountOf, Account.settle, hput]
    rfl

/-- Settlements are entered in their table only. -/
theorem settle_eq (e : Engine) (k : Option CompletionId) (s : Settlement) :
    e.settle k s = { e with settled := (e.settle k s).settled } := by
  cases k <;> rfl

/-- Delays are removed from their table only. -/
theorem untrack_eq (e : Engine) (d : DispatcherId) (inst : String) (delay : Nat) :
    e.untrack d inst delay = { e with pending := (e.untrack d inst delay).pending } := by
  unfold untrack
  split
  · split <;> rfl
  · rfl

/-- A panic that tears a chain down is answered, and entered into the journal at most. -/
theorem tearDown_eq (e : Engine) (t : Task) (below : List Frame) (o : Origin) (c : Chain)
    (payload : Panic) : ∃ journal, e.tearDown t below o c payload =
      ({ e with journal } : Engine).answer t below (.panicked payload) := by
  cases o with
  | call r receiver => exact ⟨e.journal, rfl⟩
  | direct => exact ⟨e.journal, rfl⟩
  | continuation => exact ⟨_, rfl⟩

/-- Emissions are entered into the journal and change nothing else. -/
theorem foldl_record (e : Engine) (xs : List Emission) :
    ∃ journal, xs.foldl (fun e x => e.record (.emitted x)) e = { e with journal } := by
  induction xs generalizing e with
  | nil => exact ⟨e.journal, rfl⟩
  | cons x xs ih =>
    obtain ⟨journal, h⟩ := ih (e.record (.emitted x))
    exact ⟨journal, h⟩

end Engine

/-! ## Moves -/

/-- A move fits an account with the frames of a task apart if what comes of it is sound, and the
account passes accordingly. -/
def Move.Fits (S : Standard) (A : Account) (n : Nat) (ds : List (Chain × Deed))
    (ts : List (CompletionId × Option Reply)) : Move → Prop
  | .blocked => ds = [] ∧ ts = []
  | .on e t => t.number = n ∧ t.Sound S ∧ e.Sound S ∧ n ∈ e.tasks.map Task.number ∧
      Account.Passes S A ds ts (e.accountOf (t.frames ++ e.others n))
  | .over e _ => e.Sound S ∧ n ∈ e.tasks.map Task.number ∧
      Account.Passes S A ds ts (e.accountOf (e.others n))

namespace Account

variable {S : Standard} {A B : Account}

theorem Passes.refl : Passes S A [] [] A := .steps .refl

theorem Passes.of_eq (h : B = A) : Passes S A [] [] B := h ▸ .refl

theorem await_none (A : Account) :
    { A with waiting := ((none : Option CompletionId).toList : Multiset CompletionId) +
      A.waiting } = A := by
  simp only [Option.toList_none, Multiset.coe_nil, Multiset.zero_add]

/-- A chain that goes on without a change of a position. -/
theorem Step.stay {o : Origin} {c c' : Chain} {φ φ' : Phase} {ds : List Deed} {R : Multiset Strand}
    (h : A.strands = ⟨o, c, φ⟩ ::ₘ R) (hd : S.definition c.definition)
    (hgo : Goes (A.position c.inst) c φ ds (A.position c.inst) c' φ')
    (hc : c'.completion = c.completion) (hφ : ∀ next, φ' ≠ .resting next) :
    Step S A (ds.map (c, ·)) [] { A with strands := ⟨o, c', φ'⟩ ::ₘ R } := by
  have hstep := Step.go h hd hgo hc hφ
  rwa [Function.update_eq_self] at hstep

end Account

namespace Engine

variable {S : Standard} {A : Account} {e e' : Engine} {t : Task} {below : List Frame}
  {ds : List (Chain × Deed)} {ts : List (CompletionId × Option Reply)}

/-- What is needed of an engine that is about to take on a task with some frames. -/
structure Holds (S : Standard) (e : Engine) (t : Task) (frames : List Frame) : Prop where
  sound : e.Sound S
  mem : t.number ∈ e.tasks.map Task.number
  task : (t.doing frames).Sound S

namespace Holds

variable {f : Frame}

theorem on (h : e.Holds S t (f :: below)) (hA : Account.Passes S A ds ts
    (e.accountOf (f :: (below ++ e.others t.number)))) :
    (Move.on e (t.doing (f :: below))).Fits S A t.number ds ts :=
  ⟨rfl, h.task, h.sound, h.mem, hA⟩

theorem replace (h : e.Holds S t (f :: below)) {g : Frame} (hg : g.Sound S) :
    e.Holds S t (g :: below) :=
  ⟨h.sound, h.mem, h.task.replace hg⟩

theorem congr (h : e.Holds S t below) (hsound : e'.Sound S) (htasks : e'.tasks = e.tasks) :
    e'.Holds S t below :=
  ⟨hsound, htasks ▸ h.mem, h.task⟩

/-- **The end of a call is handed to the frame below, which waits for it, or ends the task.** -/
theorem answer (h : e.Holds S t (f :: below)) (reply : Reply) (hA : Account.Passes S A ds ts
    (e.accountOf (below ++ e.others t.number))) :
    (e.answer t below reply).Fits S A t.number ds ts := by
  cases below with
  | nil => cases reply <;> exact ⟨h.sound, h.mem, hA⟩
  | cons g rest =>
    have hcalling : g.isCalling = true := h.task.calling g List.mem_cons_self
    have hsound : g.Sound S := h.task.frames g (List.mem_cons_of_mem _ List.mem_cons_self)
    cases g with
    | driving o c stage =>
      cases stage with
      | calling index next =>
        have htask : (t.doing (.driving o c (.inside index (next reply)) :: rest)).Sound S := by
          refine ⟨?_, fun g hg => h.task.calling g (List.mem_cons_of_mem _ hg)⟩
          intro g hg
          rcases List.mem_cons.1 hg with rfl | hg
          · exact ⟨hsound.1, hsound.2 reply⟩
          · exact h.task.frames g (List.mem_cons_of_mem _ (List.mem_cons_of_mem _ hg))
        have hphase : (Stage.calling index next).phase = (Stage.inside index (next reply)).phase :=
          rfl
        rw [List.cons_append, accountOf_stage e o c hphase] at hA
        exact ⟨rfl, htask, h.sound, h.mem, hA⟩
      | _ => cases hcalling
    | _ => cases hcalling

theorem park (h : e.Holds S t t.frames) (hA : A = e.accountOf (t.frames ++ e.others t.number)) :
    (e.park t).Fits S A t.number [] [] :=
  ⟨rfl, ⟨h.task.frames, h.task.calling⟩, h.sound, h.mem, .of_eq hA.symm⟩

end Holds

variable {o : Origin} {c : Chain}

/-- The account of an engine with some frames for one of its tasks. -/
def accountBut (e : Engine) (t : Task) (frames : List Frame) : Account :=
  e.accountOf (frames ++ e.others t.number)

/-! ## Continuations -/

theorem accountOf_armed {m : Engine} {timer : Timer Continuation} {timers : Timers Continuation}
    (harmed : m.scheduler.timers.armed.Perm (timer :: timers.armed)) (F : List Frame) :
    (m.accountOf F).strands = timer.strand ::ₘ
      ((m.withTimers timers).accountOf F).strands := by
  have hperm : (m.scheduler.timers.armed.map Timer.strand : Multiset Strand) =
      timer.strand ::ₘ (timers.armed.map Timer.strand : List Strand) :=
    Multiset.coe_eq_coe.2 (harmed.map _)
  simp only [accountOf, hperm, Multiset.add_cons, withTimers]

/-- **A continuation that goes off is a chain that wakes up.** -/
theorem wake {m : Engine} (hm : m.Sound S) {timer : Timer Continuation}
    {timers : Timers Continuation}
    (harmed : m.scheduler.timers.armed.Perm (timer :: timers.armed)) :
    ∃ m' f, (m.withTimers timers).resumeContinuation timer.token timer.work = m' ∧ m'.Sound S ∧
      m'.tasks = m.tasks ++ [⟨m.next, timer.token, false, [f]⟩] ∧
      ∀ F, Account.Steps S (m.accountOf F) [] [] (m'.accountOf (f :: F)) := by
  have hd : S.definition timer.work.chain.definition :=
    hm.armed timer (harmed.mem_iff.2 List.mem_cons_self)
  have hsound : (m.withTimers timers).Sound S :=
    hm.withTimers fun timer' h => hm.armed timer' (harmed.mem_iff.2 (List.mem_cons_of_mem _ h))
  have hf : Frame.Sound S (.driving .continuation timer.work.chain (.entering timer.work.next)) :=
    ⟨hd, trivial⟩
  refine ⟨_, .driving .continuation timer.work.chain (.entering timer.work.next), rfl, ?_, ?_, ?_⟩
  · rw [resumeContinuation, untrack_eq]
    refine Sound.spawn ?_ _ hf
    exact hsound.congr rfl le_rfl rfl rfl
  · rw [resumeContinuation, untrack_eq]
    rfl
  · intro F
    rw [resumeContinuation, untrack_eq]
    have hstep := Account.Step.stay (accountOf_armed harmed F) hd .wake rfl (by simp)
    have hsteps := hstep.steps.tail (.number (Nat.le_succ m.next))
    have haccount := strands_driving (m.withTimers timers) .continuation timer.work.chain
      (.entering timer.work.next) F
    simp only [List.map_nil, List.append_nil] at hsteps
    refine cast (congrArg _ ?_) hsteps
    simp only [spawn, accountOf] at haccount ⊢
    rw [haccount]
    rfl

/-- What goes off at once is the first of the timers, and its deadline has come. -/
theorem releaseDue_cases (m : Engine) :
    m.releaseDue = m ∨ ∃ timer armed, m.scheduler.timers.armed = timer :: armed ∧
      timer.deadline ≤ m.scheduler.timers.clock ∧
      m.releaseDue = (m.withTimers { m.scheduler.timers with armed }).resumeContinuation
        timer.token timer.work := by
  unfold releaseDue
  split
  · split
    · rename_i timer timers hpop
      unfold Timers.pop? at hpop
      split at hpop
      · cases hpop
      · rename_i x rest harmed
        split at hpop
        · rename_i hdue
          cases hpop
          refine .inr ⟨timer, rest, harmed, hdue, ?_⟩
          rw [Nat.max_eq_left hdue]
          rfl
        · cases hpop
    · exact .inl rfl
  · exact .inl rfl

theorem others_of_tasks (h : e'.tasks = e.tasks) (n : Nat) : e'.others n = e.others n := by
  rw [others, others, h]

/-- **What goes off at once leaves the other tasks alone.** -/
theorem Holds.releaseDue (h : e.Holds S t below) :
    e.releaseDue.Holds S t below ∧ ∀ F, Account.Steps S (e.accountOf (F ++ e.others t.number)) [] []
      (e.releaseDue.accountOf (F ++ e.releaseDue.others t.number)) := by
  obtain hsame | ⟨timer, armed, harmed, -, hrelease⟩ := releaseDue_cases e
  · rw [hsame]
    exact ⟨h, fun F => .refl⟩
  · have hperm : e.scheduler.timers.armed.Perm
        (timer :: ({ e.scheduler.timers with armed } : Timers Continuation).armed) := .of_eq harmed
    obtain ⟨m, f, hm, hsound, htasks, hsteps⟩ := wake h.sound hperm
    rw [hrelease, hm]
    have hne : e.next ≠ t.number := by
      obtain ⟨t', ht', hnumber⟩ := List.mem_map.1 h.mem
      have hlt := h.sound.lt_next t' ht'
      omega
    have hothers : m.others t.number = e.others t.number ++ [f] := by
      simp [others, htasks, hne]
    have hmem : t.number ∈ m.tasks.map Task.number := by
      rw [htasks, List.map_append]
      exact List.mem_append_left _ h.mem
    refine ⟨⟨hsound, hmem, h.task⟩, fun F => ?_⟩
    have hperm : (f :: (F ++ e.others t.number)).Perm (F ++ m.others t.number) := by
      rw [hothers, ← List.append_assoc]
      exact (List.perm_append_singleton _ _).symm
    rw [← accountOf_perm m hperm]
    exact hsteps _

/-- A continuation is armed and what is due goes off at once, or the timers stay as they are; a number
is drawn in any case. -/
theorem suspend_eq_cases (e : Engine) (c : Chain) (token : Token) (next : Nat) (due : Instant) :
    ∃ scheduler pending journal,
      (scheduler.timers.start = e.scheduler.timers.start ∧
        scheduler.timers.clock = e.scheduler.timers.clock ∧
        scheduler.timers.armed.Perm (⟨e.scheduler.timers.deadline due, token.child e.next,
          ⟨c, next, e.next⟩⟩ :: e.scheduler.timers.armed) ∧
        e.suspend c token next due =
          (({ e with next := e.next + 1, pending, scheduler, journal } : Engine).releaseDue,
            .ok ())) ∨
      ∃ error, scheduler.timers = e.scheduler.timers ∧ e.suspend c token next due =
        ({ e with next := e.next + 1, pending, scheduler, journal },
          .error (.scheduler error)) := by
  have hcall := e.scheduler.schedule_cases e.cancelled due (token.child e.next) ⟨c, next, e.next⟩
  cases hs : e.scheduler.schedule e.cancelled due (token.child e.next) ⟨c, next, e.next⟩ with
  | mk scheduler result =>
    rw [hs] at hcall
    obtain ⟨rfl, hstart, hclock, harmed⟩ | ⟨error, rfl, htimers⟩ := hcall
    · obtain ⟨pending, journal, hm⟩ : ∃ pending journal, e.suspend c token next due =
          (({ e with next := e.next + 1, pending, scheduler, journal } : Engine).releaseDue,
            .ok ()) := by
        simp only [suspend, fresh, track, hs]
        exact ⟨_, _, rfl⟩
      exact ⟨scheduler, pending, journal, .inl ⟨hstart, hclock, harmed, hm⟩⟩
    · obtain ⟨pending, journal, hm⟩ : ∃ pending journal, e.suspend c token next due =
          ({ e with next := e.next + 1, pending, scheduler, journal },
            .error (.scheduler error)) := by
        simp only [suspend, fresh, track, hs]
        rw [untrack_eq]
        exact ⟨_, _, rfl⟩
      exact ⟨scheduler, pending, journal, .inr ⟨error, htimers, hm⟩⟩

/-- A chain is laid to rest, and then what is due goes off at once; or the timers stay as they
are. -/
theorem suspend_cases (h : e.Sound S) (hd : S.definition c.definition) (token : Token) (next : Nat)
    (due : Instant) :
    ∃ m, m.Sound S ∧ m.tasks = e.tasks ∧
      ((e.suspend c token next due = (m.releaseDue, .ok ()) ∧
          ∀ F, m.accountOf F = { e.accountOf F with
            strands := ⟨.continuation, c, .resting next⟩ ::ₘ (e.accountOf F).strands
            next := e.next + 1 }) ∨
        ∃ error, e.suspend c token next due = (m, .error (.scheduler error)) ∧
          ∀ F, m.accountOf F = { e.accountOf F with next := e.next + 1 }) := by
  obtain ⟨scheduler, pending, journal, ⟨-, -, harmed, hm⟩ | ⟨error, htimers, hm⟩⟩ :=
    e.suspend_eq_cases c token next due
  · have hsound : (e.withTimers scheduler.timers).Sound S := by
      refine h.withTimers fun timer htimer => ?_
      rcases List.mem_cons.1 (harmed.mem_iff.1 htimer) with rfl | htimer
      · exact hd
      · exact h.armed timer htimer
    have hperm : (scheduler.timers.armed.map Timer.strand : Multiset Strand) =
        ⟨.continuation, c, .resting next⟩ ::ₘ
          (e.scheduler.timers.armed.map Timer.strand : List Strand) :=
      Multiset.coe_eq_coe.2 (harmed.map _)
    refine ⟨_, ?_, ?_, .inl ⟨hm, fun F => ?_⟩⟩
    · exact hsound.congr rfl (Nat.le_succ _) rfl rfl
    · rfl
    · simp only [accountOf, hperm, Multiset.add_cons]
      rfl
  · have htimers : scheduler.timers.armed = e.scheduler.timers.armed := congrArg _ htimers
    refine ⟨_, ?_, ?_, .inr ⟨error, hm, fun F => ?_⟩⟩
    · exact h.congr rfl (Nat.le_succ _) htimers rfl
    · rfl
    · simp only [accountOf, htimers]
      rfl

end Engine

end DurableFlow
