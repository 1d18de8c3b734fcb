import DurableFlow.Proofs.Soundness.Simulation

/-!
# Turns of tasks

What a task does when it is taken on by one move, told by its frames: which frames stand afterwards,
which deeds are done, and whether a chain was laid to rest (`Engine.Turns`). A continuation that is
due goes off in the same move; nothing else happens to the other tasks and timers (`Engine.Stirs`).

Main statement: every move of a sound task is such a turn (`Engine.turned_move`).
-/

namespace DurableFlow

/-- The task that goes on with a chain that rested. -/
def Timer.task (x : Timer Continuation) (number : Nat) : Task :=
  ⟨number, x.token, false, [.driving .continuation x.work.chain (.entering x.work.next)]⟩

namespace Frame

/-- The frames that go on once the call above them has ended with a reply. -/
def resumed (reply : Reply) : List Frame → List Frame
  | .driving o c (.calling i next) :: below => .driving o c (.inside i (next reply)) :: below
  | _ => []

/-- The frames that go on once a chain no longer runs in its task. -/
def departed (o : Origin) (reply : Reply) (below : List Frame) : List Frame :=
  match o with
  | .call r (some k) => .receiving r k :: below
  | _ => resumed reply below

/-- Whether a frame waits for something that happens elsewhere. -/
def isWaiting : Frame → Bool
  | .driving _ _ (.inside _ (.await _ _ _)) | .receiving _ _ | .listening _ => true
  | _ => false

end Frame

/-- Whether the innermost frame of a task waits. -/
def Task.isWaiting (t : Task) : Bool := t.frames.head?.any Frame.isWaiting

/-- Whether a task does nothing by itself. -/
def Task.isIdle (t : Task) : Bool :=
  t.parked || t.frames.head?.all fun f => f.isWaiting || f.isCalling

/-- A task that waits does so for what a run comes to, or for a signal within a step. -/
theorem Task.Sound.waits_cases {S : Standard} {t : Task} (h : t.Sound S)
    (hwaiting : t.isWaiting = true) : (∃ r k below, t.frames = .receiving r k :: below) ∨
      ∃ o c i context s rest below,
        t.frames = .driving o c (.inside i (.await context s rest)) :: below := by
  cases hf : t.frames with
  | nil => simp [Task.isWaiting, hf] at hwaiting
  | cons f below =>
    cases f with
    | opening => simp [Task.isWaiting, hf, Frame.isWaiting] at hwaiting
    | listening k => exact (h.frames (.listening k) (hf ▸ List.mem_cons_self)).elim
    | receiving r k => exact .inl ⟨r, k, below, rfl⟩
    | driving o c stage =>
      cases stage with
      | inside i b =>
        cases b with
        | await context s rest => exact .inr ⟨o, c, i, context, s, rest, below, rfl⟩
        | _ => simp [Task.isWaiting, hf, Frame.isWaiting] at hwaiting
      | _ => simp [Task.isWaiting, hf, Frame.isWaiting] at hwaiting

/-- The context with which a chain goes on from a stage. -/
def Stage.leaves (context : Context) : Stage → Context
  | .inside _ (.finish context _) => context
  | _ => context

namespace Engine

/-- What becomes of the frames of a task by one move: the deeds that are done, the continuation that
is armed if a chain is laid to rest, and the frames that stand afterwards. -/
inductive Turns (e : Engine) (t : Task) :
    List (Chain × Deed) → Option (Timer Continuation) → List Frame → Prop
  | look (h : t.isIdle = true) : Turns e t [] none t.frames
  | abandon {fs o c stage} (ht : t.frames = fs ++ [.driving o c stage])
      (hs : stage.isInside = true) (hp : t.parked = true) (hc : e.isCancelled t.token = true) :
      Turns e t (losses fs) none [.driving o c (.halting .cancelled)]
  | decline {r q resuming below reply} (ht : t.frames = .opening r q resuming :: below) :
      Turns e t [] none (Frame.resumed reply below)
  | start {r q resuming below id d inst c i} (ht : t.frames = .opening r q resuming :: below)
      (hc : c.completion = none ∨ c.completion = some ⟨e.next⟩)
      (hcontext : c.context = (seed r id d inst q).context)
      (hdefined : ∃ runner, e.runners.get? r = some runner ∧
        runner.registry.find? q.workflow = some c.definition)
      (hnumber : c.number = e.next) :
      Turns e t [(c, .started i)] none (.driving (.call r c.completion) c (.entering i) :: below)
  | stay {o c i b b' below} (ht : t.frames = .driving o c (.inside i b) :: below)
      (hb : b.Next b') : Turns e t [] none (.driving o c (.inside i b') :: below)
  | launch {o c i context r q next below}
      (ht : t.frames = .driving o c (.inside i (.launch context r q next)) :: below) :
      Turns e t [] none (.opening r q false :: .driving o c (.calling i next) :: below)
  | go {o c stage below d p p' c' stage'} (ht : t.frames = .driving o c stage :: below)
      (hstage : ∀ index next, stage' ≠ .calling index next)
      (hd : e.deed? t.token c stage = d) (hcontext : c'.context = stage.leaves c.context)
      (hgo : Goes p c stage.phase d.toList p' c' stage'.phase) :
      Turns e t (d.map (c, ·)).toList none (.driving o c' stage' :: below)
  | rest {o c next due below reply}
      (ht : t.frames = .driving o c (.acting ⟨[], .suspend next due⟩) :: below) :
      Turns e t [(c, .suspended next)]
        (some ⟨e.scheduler.timers.deadline due, t.token.child e.next, ⟨c, next, e.next⟩⟩)
        (Frame.departed o reply below)
  | stop {o c result below}
      (ht : t.frames = .driving o c (.acting ⟨[], .stop result⟩) :: below) :
      Turns e t [(c, .stopped result)] none (Frame.departed o (.settled (.ok result)) below)
  | halt {o c fault below reply} (ht : t.frames = .driving o c (.halting fault) :: below) :
      Turns e t [(c, .halted fault)] none (Frame.resumed reply below)
  | panic {o c i context payload below}
      (ht : t.frames = .driving o c (.inside i (.panic context payload)) :: below) :
      Turns e t [(c, .panicked)] none (Frame.resumed (.panicked payload) below)
  | receive {r k reply below} (ht : t.frames = .receiving r k :: below) :
      Turns e t [] none (Frame.resumed reply below)

/-- What happens to the other tasks and to the timers in the course of a move: a continuation may be
armed, and one that is due may go off; the clock stands still. -/
structure Stirs (e : Engine) (rested woken : Option (Timer Continuation)) (e' : Engine) :
    Prop where
  tasks : e'.tasks = e.tasks ++ woken.toList.map (Timer.task · (e.next + 1))
  armed : (rested.toList ++ e.scheduler.timers.armed).Perm
    (woken.toList ++ e'.scheduler.timers.armed)
  start : e'.scheduler.timers.start = e.scheduler.timers.start
  clock : e'.scheduler.timers.clock = e.scheduler.timers.clock
  due : ∀ x ∈ woken, x.deadline ≤ e.scheduler.timers.clock
  runners : e'.runners = e.runners
  endings : e'.endings = e.endings
  held : e'.held = e.held
  gates : e'.gates = e.gates
  cancelled : e.cancelled <:+ e'.cancelled
  le_next : e.next ≤ e'.next
  next_le : woken = none → e'.next ≤ e.next + 1
  next_rested : rested.isSome = true → e.next < e'.next
  next_woken : woken.isSome = true → e'.next = e.next + 2

end Engine

/-- What comes of a move is a turn of the task, and what is due goes off. -/
def Move.Turned (e : Engine) (t : Task) (ds : List (Chain × Deed)) : Move → Prop
  | .blocked => ds = [] ∧ t.isIdle = true
  | .on e' t' => ∃ rested woken, e.Stirs rested woken e' ∧ e.Turns t ds rested t'.frames ∧
      t'.number = t.number ∧ t'.token = t.token ∧ (t'.parked = true → t'.isWaiting = true)
  | .over e' _ => ∃ rested woken, e.Stirs rested woken e' ∧ e.Turns t ds rested []

namespace Engine

variable {S : Standard} {e e' : Engine} {t : Task} {below : List Frame} {o : Origin} {c : Chain}
  {ds : List (Chain × Deed)} {rested woken : Option (Timer Continuation)}

namespace Stirs

/-- Nobody else notices. -/
theorem quiet (htasks : e'.tasks = e.tasks)
    (htimers : e'.scheduler.timers = e.scheduler.timers)
    (hrunners : e'.runners = e.runners) (hendings : e'.endings = e.endings)
    (hheld : e'.held = e.held) (hgates : e'.gates = e.gates)
    (hcancelled : e.cancelled <:+ e'.cancelled) (hle : e.next ≤ e'.next)
    (hnext : e'.next ≤ e.next + 1) : e.Stirs none none e' where
  tasks := by rw [htasks]; exact (List.append_nil _).symm
  armed := by rw [htimers]
  start := by rw [htimers]
  clock := by rw [htimers]
  due x hx := by cases hx
  runners := hrunners
  endings := hendings
  held := hheld
  gates := hgates
  cancelled := hcancelled
  le_next := hle
  next_le _ := hnext
  next_rested h := by cases h
  next_woken h := by cases h

theorem refl (e : Engine) : e.Stirs none none e :=
  quiet rfl rfl rfl rfl rfl rfl List.suffix_rfl le_rfl (Nat.le_succ _)

end Stirs

/-- Frames below another one wait for it. -/
theorem calling_of_sound {f : Frame} (ht : t.Sound S) (hframes : t.frames = f :: below) :
    ∀ g ∈ below, g.isCalling = true := by
  have hcalling := ht.calling
  rw [hframes] at hcalling
  exact hcalling

/-- The end of a call goes to the frame below or ends the task, whatever the engine. -/
theorem answer_cases (t : Task) (below : List Frame) (reply : Reply) :
    (∃ frames, ∀ e : Engine, e.answer t below reply = .on e (t.doing frames)) ∨
      ∃ ending, ∀ e : Engine, e.answer t below reply = .over e ending := by
  unfold answer
  split
  · rename_i o c i next rest
    exact .inl ⟨.driving o c (.inside i (next reply)) :: rest, fun _ => rfl⟩
  · cases reply with
    | settled s => exact .inr ⟨_, fun _ => rfl⟩
    | panicked p => exact .inr ⟨_, fun _ => rfl⟩

theorem finish_cases (t : Task) (below : List Frame) (o : Origin) (result : RunResult) :
    (∃ frames, ∀ e : Engine, e.finish t below o result = .on e (t.doing frames)) ∨
      ∃ ending, ∀ e : Engine, e.finish t below o result = .over e ending := by
  cases o with
  | call r receiver =>
    cases receiver with
    | some k => exact .inl ⟨.receiving r k :: below, fun _ => rfl⟩
    | none => exact answer_cases t below _
  | direct => exact answer_cases t below _
  | continuation => exact answer_cases t below _

/-- The end of a call is handed to the frame below, if there is one. -/
theorem turned_answer (hstirs : e.Stirs rested woken e') (hp : t.parked = false)
    (hcalling : ∀ g ∈ below, g.isCalling = true) {reply : Reply}
    (hturns : e.Turns t ds rested (Frame.resumed reply below)) :
    (e'.answer t below reply).Turned e t ds := by
  cases below with
  | nil => cases reply <;> exact ⟨_, _, hstirs, hturns⟩
  | cons g rest =>
    have hg : g.isCalling = true := hcalling g List.mem_cons_self
    cases g with
    | driving o c stage =>
      cases stage with
      | calling i next =>
        refine ⟨_, _, hstirs, hturns, rfl, rfl, fun hparked => ?_⟩
        cases hp.symm.trans hparked
      | _ => cases hg
    | _ => cases hg

/-- A task that goes on does not wait. -/
theorem turned_on (hstirs : e.Stirs rested woken e') (hp : t.parked = false)
    {frames : List Frame} (hturns : e.Turns t ds rested frames) :
    (Move.on e' (t.doing frames)).Turned e t ds :=
  ⟨_, _, hstirs, hturns, rfl, rfl, fun hparked => by cases hp.symm.trans hparked⟩

/-- A chain that no longer runs in its task leaves a call behind that waits for it, or none. -/
theorem turned_finish (hstirs : e.Stirs rested woken e') (hp : t.parked = false)
    (hcalling : ∀ g ∈ below, g.isCalling = true) {result : RunResult}
    (hturns : e.Turns t ds rested (Frame.departed o (.settled (.ok result)) below)) :
    (e'.finish t below o result).Turned e t ds := by
  cases o with
  | call r receiver =>
    cases receiver with
    | some k => exact turned_on hstirs hp hturns
    | none => exact turned_answer hstirs hp hcalling hturns
  | direct => exact turned_answer hstirs hp hcalling hturns
  | continuation => exact turned_answer hstirs hp hcalling hturns

/-- A chain is laid to rest under a token below its own, and what is due goes off; or the timers
stay as they are. -/
theorem suspend_stirs (e : Engine) (c : Chain) (token : Token) (next : Nat) (due : Instant) :
    (∃ woken, (e.suspend c token next due).2 = .ok () ∧
        e.Stirs
          (some ⟨e.scheduler.timers.deadline due, token.child e.next, ⟨c, next, e.next⟩⟩) woken
          (e.suspend c token next due).1) ∨
      ∃ error, (e.suspend c token next due).2 = .error (.scheduler error) ∧
        e.Stirs none none (e.suspend c token next due).1 := by
  obtain ⟨scheduler, pending, journal, ⟨hstart, hclock, harmed, hm⟩ | ⟨error, htimers, hm⟩⟩ :=
    e.suspend_eq_cases c token next due
  · rw [hm]
    refine .inl ?_
    obtain hsame | ⟨x, armed, hx, hdue, hrelease⟩ :=
      releaseDue_cases ({ e with next := e.next + 1, pending, scheduler, journal } : Engine)
    · refine ⟨none, rfl, ?_⟩
      rw [hsame]
      refine ⟨(List.append_nil _).symm, harmed.symm, hstart, hclock, fun x hx => ?_, rfl, rfl,
        rfl, rfl, List.suffix_rfl, Nat.le_succ _, fun _ => le_rfl, fun _ => Nat.lt_succ_self _,
        fun h => ?_⟩
      · cases hx
      · cases h
    · have hdue : x.deadline ≤ scheduler.timers.clock := hdue
      refine ⟨some x, rfl, ?_⟩
      rw [hrelease, resumeContinuation, untrack_eq]
      refine ⟨rfl, harmed.symm.trans (.of_eq hx), hstart, hclock, ?_, rfl, rfl, rfl, rfl,
        List.suffix_rfl, ?_, ?_, ?_, ?_⟩
      · rintro _ ⟨⟩
        exact hclock ▸ hdue
      · exact Nat.le_add_right _ 2
      · intro h
        cases h
      · exact fun _ => Nat.lt_succ_of_lt (Nat.lt_succ_self _)
      · exact fun _ => rfl
  · rw [hm]
    exact .inr ⟨error, rfl, .quiet rfl htimers rfl rfl rfl rfl List.suffix_rfl (Nat.le_succ _) le_rfl⟩

/-! ## Turns of chains -/

theorem turned_moveInside {i : Nat} {b : Behaviour} (h : t.Sound S) (hp : t.parked = false)
    (ht : t.frames = .driving o c (.inside i b) :: below) :
    (e.moveInside t below o c i b).Turned e t
      ((e.deed? t.token c (.inside i b)).map (c, ·)).toList := by
  obtain ⟨-, hb⟩ : S.definition c.definition ∧ c.definition.Within i c.context b :=
    h.frames (.driving o c (.inside i b)) (ht ▸ List.mem_cons_self)
  have hcalling := calling_of_sound h ht
  -- A step that goes on does no deed.
  have stay : ∀ {e' : Engine} {b' : Behaviour}, e.Stirs none none e' → b.Next b' →
      (Move.on e' (t.doing (.driving o c (.inside i b') :: below))).Turned e t [] :=
    fun hstirs hnext => turned_on hstirs hp (.stay ht hnext)
  cases b with
  | finish context outcome =>
    simp only [moveInside]
    split
    · rename_i plan hplan
      exact turned_on (.refl e) hp (.go ht (by simp) rfl rfl (p := 0) (.heed hb hplan))
    · rename_i fault hplan
      exact turned_on (.refl e) hp (.go ht (by simp) rfl rfl (p := 0) (.misjump hb hplan))
  | panic context payload =>
    obtain ⟨journal, hdown⟩ := e.tearDown_eq t below o c payload
    have hstirs : e.Stirs none none { e with journal } :=
      .quiet rfl rfl rfl rfl rfl rfl List.suffix_rfl le_rfl (Nat.le_succ _)
    simp only [moveInside, hdown]
    exact turned_answer hstirs hp hcalling (.panic ht)
  | emit emission rest =>
    exact stay (.quiet rfl rfl rfl rfl rfl rfl List.suffix_rfl le_rfl (Nat.le_succ _)) (.emit ..)
  | cancel rest =>
    exact stay (.quiet rfl rfl rfl rfl rfl rfl (List.suffix_cons _ _) le_rfl (Nat.le_succ _))
      (.cancel ..)
  | await context signal rest =>
    simp only [moveInside]
    split
    · exact stay (.refl e) (.await ..)
    · refine ⟨none, none, .refl e, .look ?_, rfl, rfl, fun _ => ?_⟩
      · simp [Task.isIdle, ht, Frame.isWaiting]
      · simp [Task.isWaiting, ht, Frame.isWaiting]
  | locate runner next => exact stay (.refl e) (.locate ..)
  | launch context runner request next => exact turned_on (.refl e) hp (.launch ht)

theorem turned_moveActing {plan : Plan} (h : t.Sound S) (hp : t.parked = false)
    (ht : t.frames = .driving o c (.acting plan) :: below) :
    (e.moveActing t below o c plan).Turned e t
      ((e.deed? t.token c (.acting plan)).map (c, ·)).toList := by
  obtain ⟨effects, turn⟩ := plan
  have hcalling := calling_of_sound h ht
  cases effects with
  | cons effect es =>
    cases effect with
    | save next =>
      have hperform : e.perform c (.save next) =
          ((e.save c.inst next).1, c, (e.save c.inst next).2.mapError .store) := rfl
      have hstirs : e.Stirs none none (e.save c.inst next).1 :=
        .quiet rfl rfl rfl rfl rfl rfl List.suffix_rfl le_rfl (Nat.le_succ _)
      simp only [moveActing, hperform]
      cases hr : (e.save c.inst next).2 with
      | ok _ =>
        exact turned_on hstirs hp
          (.go ht (by simp) (p := 0) rfl rfl (by simpa [deed?, hr] using .save))
      | error err =>
        exact turned_on hstirs hp
          (.go ht (by simp) (p := 0) rfl rfl (by simpa [deed?, hr] using .unsave))
    | publish news =>
      have hperform : e.perform c (.publish news) =
          ((e.publish (c.notice news)).1, c, (e.publish (c.notice news)).2) := rfl
      have hstirs : e.Stirs none none (e.publish (c.notice news)).1 := by
        rw [publish_eq]
        exact .quiet rfl rfl rfl rfl rfl rfl List.suffix_rfl le_rfl (Nat.le_succ _)
      simp only [moveActing, hperform]
      rcases publish_cases e (c.notice news) with hr | hr
      · simp only [hr]
        exact turned_on hstirs hp
          (.go ht (by simp) (p := 0) rfl rfl (by simpa [deed?, hr] using .publish))
      · simp only [hr]
        exact turned_on hstirs hp
          (.go ht (by simp) (p := 0) rfl rfl (by simpa [deed?, hr] using .refuse))
    | settle s =>
      have hstirs : e.Stirs none none (e.settle c.completion s) := by
        rw [settle_eq]
        exact .quiet rfl rfl rfl rfl rfl rfl List.suffix_rfl le_rfl (Nat.le_succ _)
      exact turned_on hstirs hp (.go ht (by simp) (p := 0) rfl rfl .settle)
  | nil =>
    cases turn with
    | arrive index => exact turned_on (.refl e) hp (.go ht (by simp) (p := 0) rfl rfl .arrive)
    | suspend next due =>
      obtain ⟨woken, hr, hstirs⟩ | ⟨error, hr, hstirs⟩ :=
        e.suspend_stirs c t.token next due
      · simp only [moveActing, deed?, hr]
        exact turned_finish hstirs hp hcalling (.rest ht)
      · simp only [moveActing, hr]
        exact turned_on hstirs hp
          (.go ht (by simp) (p := 0) rfl rfl (by simpa [deed?, hr] using .unschedule))
    | stop result => exact turned_finish (.refl e) hp hcalling (.stop ht)

theorem turned_moveDriving {stage : Stage} (h : t.Sound S) (hp : t.parked = false)
    (ht : t.frames = .driving o c stage :: below) :
    (e.moveDriving t below o c stage).Turned e t ((e.deed? t.token c stage).map (c, ·)).toList := by
  cases stage with
  | entering index =>
    simp only [moveDriving]
    cases hs : c.definition.step? index with
    | none =>
      have hsize := Definition.step?_eq_none_iff.1 hs
      exact turned_on (.refl e) hp
        (.go ht (by simp) (p := 0) rfl rfl (by simpa [deed?, hsize] using .pass hsize))
    | some step =>
      have hlt := (Definition.within_execute hs c.context).lt_size
      have hsize := Nat.not_le.2 hlt
      dsimp only
      split
      · rename_i hcancelled
        exact turned_on (.refl e) hp
          (.go ht (by simp) (p := 0) rfl rfl (by simpa [deed?, hsize, hcancelled] using .withdraw))
      · rename_i hcancelled
        have hstirs : e.Stirs none none (e.record (.executed c.inst index c.context)) :=
          .quiet rfl rfl rfl rfl rfl rfl List.suffix_rfl le_rfl (Nat.le_succ _)
        exact turned_on hstirs hp
          (.go ht (by simp) (p := 0) rfl rfl (by simpa [deed?, hsize, hcancelled] using .execute hlt))
  | inside index b => exact turned_moveInside h hp ht
  | calling index next => exact ⟨rfl, by simp [Task.isIdle, ht, Frame.isCalling]⟩
  | acting plan => exact turned_moveActing h hp ht
  | halting fault =>
    have hcalling := calling_of_sound h ht
    have hsettled : e.Stirs none none (e.settle c.completion (.error (.fault fault))) := by
      rw [settle_eq]
      exact .quiet rfl rfl rfl rfl rfl rfl List.suffix_rfl le_rfl (Nat.le_succ _)
    simp only [moveDriving, Engine.halt]
    split
    · exact turned_answer (.refl e) hp hcalling (.halt ht)
    · exact turned_answer (.refl e) hp hcalling (.halt ht)
    · exact turned_answer (.refl e) hp hcalling (.halt ht)
    · exact turned_answer hsettled hp hcalling (.halt ht)

/-! ## Turns of calls -/

theorem turned_moveOpening {r : RunnerId} {q : Request} {resuming : Bool} (h : t.Sound S)
    (hp : t.parked = false) (ht : t.frames = .opening r q resuming :: below) :
    (e.moveOpening t below r q resuming).Turned e t
      (e.moveOpening t below r q resuming).started := by
  have hcalling := calling_of_sound h ht
  have hopens := e.opens_moveOpening t below r q resuming
  generalize e.moveOpening t below r q resuming = m at hopens ⊢
  cases hopens with
  | unknown =>
    rw [refuse, started_answer]
    exact turned_answer (.refl e) hp hcalling (.decline ht)
  | answers journal reply _ _ _ =>
    have hstirs : e.Stirs none none (e.consulted q journal) :=
      .quiet rfl rfl rfl rfl rfl rfl List.suffix_rfl le_rfl (Nat.le_succ _)
    rw [started_answer]
    exact turned_answer hstirs hp hcalling (.decline ht)
  | @starts D R p journal hR hD _ =>
    have hstirs : e.Stirs none none { e.consulted q journal with next := e.next + 1 } :=
      .quiet rfl rfl rfl rfl rfl rfl List.suffix_rfl (Nat.le_succ _) le_rfl
    exact turned_on hstirs hp (.start ht (e.completion_opened ..) rfl ⟨R, hR, hD⟩ rfl)

/-- What a task that is not parked does is a turn. -/
theorem turned_moveTop (h : t.Sound S) (hp : t.parked = false) :
    (e.moveTop t).Turned e t (e.deedsOf t) := by
  unfold moveTop
  split
  · rename_i ht
    have hdeeds : e.deedsOf t = [] := by simp [deedsOf, hp, ht]
    rw [hdeeds]
    exact ⟨none, none, .refl e, ht ▸ .look (by simp [Task.isIdle, ht])⟩
  · rename_i r q resuming below ht
    have hdeeds : e.deedsOf t = (e.moveOpening t below r q resuming).started := by
      simp [deedsOf, hp, ht, moveTop]
    rw [hdeeds]
    exact turned_moveOpening h hp ht
  · rename_i o c stage below ht
    have hdeeds : e.deedsOf t = ((e.deed? t.token c stage).map (c, ·)).toList := by
      simp [deedsOf, hp, ht]
    rw [hdeeds]
    exact turned_moveDriving h hp ht
  · rename_i r k below ht
    have hdeeds : e.deedsOf t = [] := by simp [deedsOf, hp, ht]
    have hcalling := calling_of_sound h ht
    rw [hdeeds]
    split
    · exact turned_answer (.refl e) hp hcalling (.receive ht)
    · split
      · refine ⟨none, none, .refl e, .look ?_, rfl, rfl, fun _ => ?_⟩
        · simp [Task.isIdle, ht, Frame.isWaiting]
        · simp [Task.isWaiting, ht, Frame.isWaiting]
      · exact turned_answer (.refl e) hp hcalling (.receive ht)
  · rename_i k below ht
    exact (h.frames (.listening k) (ht ▸ List.mem_cons_self)).elim

/-- **Every move of a sound task is a turn.** -/
theorem turned_move (h : t.Sound S) : (e.move t).Turned e t (e.deedsOf t) := by
  cases hp : t.parked with
  | false =>
    rw [move, hp]
    exact turned_moveTop h hp
  | true =>
    have hidle : t.isIdle = true := by simp [Task.isIdle, hp]
    have hlooks := e.looks_move hp
    generalize e.move t = m, e.deedsOf t = ds, e.told t = ts at hlooks ⊢
    cases hlooks with
    | giveUp hc hfs hinside =>
      exact ⟨none, none, .refl e, .abandon hfs hinside hp hc, rfl, rfl, fun h => by cases h⟩
    | takeUp _ => exact ⟨none, none, .refl e, .look hidle, rfl, rfl, fun h => by cases h⟩
    | wait _ => exact ⟨rfl, hidle⟩

theorem turned_of_on (h : t.Sound S) {u : Task} (hmove : e.move t = .on e' u) :
    ∃ rested woken, e.Stirs rested woken e' ∧ e.Turns t (e.deedsOf t) rested u.frames ∧
      u.number = t.number ∧ u.token = t.token ∧ (u.parked = true → u.isWaiting = true) := by
  have hturned := turned_move (e := e) h
  rw [hmove] at hturned
  exact hturned

theorem turned_of_over (h : t.Sound S) {ending : Ending} (hmove : e.move t = .over e' ending) :
    ∃ rested woken, e.Stirs rested woken e' ∧ e.Turns t (e.deedsOf t) rested [] := by
  have hturned := turned_move (e := e) h
  rw [hmove] at hturned
  exact hturned

end Engine

end DurableFlow
