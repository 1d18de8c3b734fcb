import DurableFlow.Proofs.Waiting.UnawaitedMoves
import DurableFlow.Proofs.Settlement.BrokenPromises

/-!
# How calls that wait are taken on

A call that waits and the one in the hushed engine are opened alike (`Engine.Hushes.callOpens`), and
they are taken on alike until their chain leaves them (`Engine.Hushes.callTurns`).
-/

namespace DurableFlow

namespace Engine

variable {S : Standard} {e : Engine} {n : Nat} {r : RunnerId} {j : CompletionId} {t u : Task}
  {o : Origin} {c : Chain} {ds : List (Chain × Deed)} {rested : Option (Timer Continuation)}
  {frames : List Frame} {last : Option RunnerId}

/-- A call that waits for nothing yet is over only by a fault or a panic of its chain. -/
theorem Turns.call_of_nil (h : e.Turns t ds rested []) (hsound : t.Sound S)
    (hrooted : t.IsRooted n r (some j)) (hwaiting : t.parked = true → t.isWaiting = true)
    (hlast : t.posts.getLast? = some ⟨some j, last⟩) (haw : t.awaits (some j) = false) :
    t.parked = false ∧ ((∃ c i context payload,
        t.frames = [.driving (.call r (some j)) c (.inside i (.panic context payload))]) ∨
      ∃ c fault, t.frames = [.driving (.call r (some j)) c (.halting fault)]) := by
  obtain ⟨g, hframes, hreceiver, hform⟩ := h.single_of_nil hsound hlast
  have hcall : ∀ {o : Origin} {c : Chain} {stage : Stage}, g = .driving o c stage →
      o = .call r (some j) := by
    rintro o c stage rfl
    obtain ⟨-, hrunner, -⟩ := hrooted.of_top hframes hreceiver
    cases o with
    | call r' receiver =>
      cases hrunner
      cases hreceiver
      rfl
    | direct => cases hreceiver
    | continuation => cases hreceiver
  have hawake : g.isWaiting = false → t.parked = false := by
    intro hg
    by_contra hp
    have hwaits := hwaiting (Bool.not_eq_false _ ▸ hp)
    simp [Task.isWaiting, hframes, hg] at hwaits
  obtain ⟨o, c, i, context, payload, rfl⟩ | ⟨o, c, fault, rfl⟩ | ⟨r', k, rfl⟩ := hform
  · obtain rfl := hcall rfl
    exact ⟨hawake rfl, .inl ⟨c, i, context, payload, hframes⟩⟩
  · obtain rfl := hcall rfl
    exact ⟨hawake rfl, .inr ⟨c, fault, hframes⟩⟩
  · obtain rfl : k = j := Option.some.inj hreceiver
    simp [Task.awaits, hframes] at haw

/-- A call comes to wait by laying its chain to rest, unless the chain stops. -/
theorem Turns.deeds_of_suspend {next : Nat} {due : Instant}
    (h : e.Turns t ds rested [.receiving r j])
    (hframes : t.frames = [.driving o c (.acting ⟨[], .suspend next due⟩)]) :
    ds = [(c, .suspended next)] := by
  obtain ⟨frames, hreceiving, h⟩ :
      ∃ frames, frames = [.receiving r j] ∧ e.Turns t ds rested frames := ⟨_, rfl, h⟩
  cases h with
  | look _ => cases hframes.symm.trans hreceiving
  | abandon _ _ _ _ => cases hreceiving
  | decline h' => cases hframes.symm.trans h'
  | start h' _ _ => cases hframes.symm.trans h'
  | stay h' _ => cases hframes.symm.trans h'
  | launch h' => cases hframes.symm.trans h'
  | go _ _ _ _ _ => cases hreceiving
  | rest h' =>
    cases hframes.symm.trans h'
    rfl
  | stop h' => cases hframes.symm.trans h'
  | halt h' => cases hframes.symm.trans h'
  | panic h' => cases hframes.symm.trans h'
  | receive h' => cases hframes.symm.trans h'

theorem move_panicking {receiver : Option CompletionId} {i : Nat} {context : Context}
    {payload : Panic} (hp : t.parked = false)
    (hframes : t.frames =
      [.driving (.call r receiver) c (.inside i (.panic context payload))]) :
    e.move t = .over e (.panicked payload) := by
  simp [move_driving hp hframes, moveDriving, moveInside, tearDown, answer]

theorem move_halting {receiver : Option CompletionId} {fault : Fault} (hp : t.parked = false)
    (hframes : t.frames = [.driving (.call r receiver) c (.halting fault)]) :
    e.move t = .over e (.returned
      ((receiver.bind e.settled.get?).getD (.error (.fault fault)))) := by
  cases receiver <;> simp [move_driving hp hframes, moveDriving, halt, answer]

/-- What comes of a call that waits, in the one engine, and of the call that does not, in the other
one, when they are taken on. -/
inductive CallTurns (n : Nat) (r : RunnerId) (j : CompletionId) (t : Task) (w f : Engine) : Prop
  | stays {u : Task} (hu : u ∈ (w.act (.advance n)).tasks) (hnumber : u.number = n)
      (hlast : u.posts.getLast? = some ⟨some j, some r⟩) (haw : u.awaits (some j) = false)
      (hf : ∃ u' ∈ (f.act (.advance n)).tasks, u'.number = n)
  | panics {c : Chain} {i : Nat} {context : Context} {payload : Panic}
      (hframes : t.frames = [.driving (.call r (some j)) c (.inside i (.panic context payload))])
      (hover : ∀ u ∈ (w.act (.advance n)).tasks, u.number ≠ n)
      (hw : (w.act (.advance n)).endings = w.endings ++ [(n, .panicked payload)])
      (hf : (f.act (.advance n)).endings = f.endings ++ [(n, .panicked payload)])
  | halts {c : Chain} {fault : Fault}
      (hframes : t.frames = [.driving (.call r (some j)) c (.halting fault)])
      (hover : ∀ u ∈ (w.act (.advance n)).tasks, u.number ≠ n)
      (hw : (w.act (.advance n)).endings =
        w.endings ++ [(n, .returned ((w.settled.get? j).getD (.error (.fault fault))))])
      (hf : (f.act (.advance n)).endings =
        f.endings ++ [(n, .returned (.error (.fault fault)))])
  | stops {c : Chain} {result : RunResult}
      (hframes : t.frames = [.driving (.call r (some j)) c (.acting ⟨[], .stop result⟩)])
      (hw : t.doing [.receiving r j] ∈ (w.act (.advance n)).tasks)
      (hf : (f.act (.advance n)).endings = f.endings ++ [(n, .returned (.ok result))])
  | rests {c : Chain} {next : Nat} {due : Instant}
      (hframes : t.frames = [.driving (.call r (some j)) c (.acting ⟨[], .suspend next due⟩)])
      (hd : (c, .suspended next) ∈ w.deeds (.advance n))
      (hw : t.doing [.receiving r j] ∈ (w.act (.advance n)).tasks)
      (hf : (f.act (.advance n)).endings =
        f.endings ++ [(n, .returned (.ok (Plan.resultOf c.context .delayed)))])

section

variable {w f : Engine} (hh : w.Hushes n (some j) f) (hr : w.IsRooted n r (some j))
  (hw : w.Sound S) (hf : f.Sound S) (ht : t ∈ w.tasks) (hn : t.number = n)
  (hwaiting : t.parked = true → t.isWaiting = true)
  (hlast : t.posts.getLast? = some ⟨some j, some r⟩) (haw : t.awaits (some j) = false)
include hh hr hw hf ht hn hwaiting hlast haw

/-- **A call that waits and one that does not part only when their chain leaves them.** -/
theorem Hushes.callTurns : CallTurns n r j t w f := by
  subst hn
  have hsound := hw.tasks t ht
  have hrooted := hr.tasks t ht
  have htask := hw.task?_of_mem ht
  have htask' := hh.task?_eq hf ht haw
  have hhush : t.hush t.number (some j) = t.doing (t.frames.map (Frame.hush (some j))) := by
    simp [Task.hush]
  have ht' : t.hush t.number (some j) ∈ f.tasks := (task?_eq_some htask').1
  have hmoves := hh.move hr hrooted hsound haw
  rw [← hhush] at hmoves
  obtain ⟨hmove, hact⟩ | ⟨m, u, rested, woken, hmove, hstirs, hturns, hact⟩ |
    ⟨m, x, rested, woken, hmove, hstirs, hturns, hact⟩ := hw.advance_cases ht
  · rw [hmove] at hmoves
    generalize hmove' : f.move (t.hush t.number (some j)) = μ' at hmoves
    cases hmoves with
    | blocked =>
      have hact' : f.act (.advance t.number) = f := Engine.act_advance_blocked htask' hmove'
      refine .stays (u := t) ?_ rfl hlast haw ⟨t.hush t.number (some j), ?_, rfl⟩
      · rwa [hact]
      · rwa [hact']
  · obtain ⟨hnumber, hu⟩ := hw.mem_tasks_advance ht hmove
    have hne : u.frames ≠ [] := by
      intro hnil
      rw [hnil] at hturns
      obtain ⟨hp, ⟨c, i, context, payload, hframes⟩ | ⟨c, fault, hframes⟩⟩ :=
        hturns.call_of_nil hsound hrooted hwaiting hlast haw
      · cases hmove.symm.trans (move_panicking hp hframes)
      · cases hmove.symm.trans (move_halting hp hframes)
    rw [hmove] at hmoves
    generalize hmove' : f.move (t.hush t.number (some j)) = μ' at hmoves
    cases hmoves with
    | on hm hu' =>
      obtain ⟨hnumber', hmem'⟩ := hf.mem_tasks_advance ht' hmove'
      exact .stays hu hnumber (hturns.getLast?_posts hne hlast) hu' ⟨_, hmem', hnumber'⟩
    | @leaves m m' r' j' c turn result hm hk hframes hturn =>
      cases hk
      obtain ⟨-, hrunner, -⟩ := hrooted.of_top hframes rfl
      cases hrunner
      have hends := hf.endings_over ht' hmove'
      obtain rfl | ⟨rfl, next, due, rfl⟩ := hturn
      · exact .stops hframes hu hends
      · refine .rests hframes ?_ hu hends
        have hdeeds : w.deeds (.advance t.number) = w.deedsOf t := by simp [deeds, htask]
        rw [hdeeds, hturns.deeds_of_suspend hframes]
        exact List.mem_singleton_self _
  · have hover : ∀ u ∈ (w.act (.advance t.number)).tasks, u.number ≠ t.number := by
      intro u hu
      rw [hact] at hu
      exact bne_iff_ne.1 (List.mem_filter.1 hu).2
    obtain ⟨hp, ⟨c, i, context, payload, hframes⟩ | ⟨c, fault, hframes⟩⟩ :=
      hturns.call_of_nil hsound hrooted hwaiting hlast haw
    · have hframes' : (t.hush t.number (some j)).frames =
          [.driving (.call r none) (c.hush (some j)) (.inside i (.panic context payload))] := by
        rw [hhush, ← Origin.hush_of_eq, Task.doing, hframes]
        rfl
      exact .panics hframes hover (hw.endings_over ht (move_panicking hp hframes))
        (hf.endings_over ht' (move_panicking hp hframes'))
    · have hframes' : (t.hush t.number (some j)).frames =
          [.driving (.call r none) (c.hush (some j)) (.halting fault)] := by
        rw [hhush, ← Origin.hush_of_eq, Task.doing, hframes]
        rfl
      exact .halts hframes hover (hw.endings_over ht (move_halting hp hframes))
        (hf.endings_over ht' (move_halting (t := t.hush t.number (some j)) hp hframes'))

end

/-! ## The request of the run is opened -/

/-- Nobody has to do with a completion. -/
structure IsUnmade (e : Engine) (k : CompletionId) : Prop where
  frames : ∀ t ∈ e.tasks, ∀ f ∈ t.frames, f.receiver? ≠ some k ∧ f.owed? ≠ some k
  armed : ∀ x ∈ e.scheduler.timers.armed, x.work.chain.completion ≠ some k

/-- Nobody has to do with the completion that is made next. -/
theorem IsNew.isUnmade (h : e.IsNew) (as : List Act) :
    (e.after as).IsUnmade ⟨(e.after as).next⟩ := by
  obtain ⟨hparties, hwaiting⟩ : (e.after as).account.parties ⟨(e.after as).next⟩ = 0 ∧
      (e.after as).account.waiting.count ⟨(e.after as).next⟩ = 0 := by
    have hlast : ¬ (⟨(e.after as).next⟩ : CompletionId).number < (e.after as).account.next :=
      Nat.lt_irrefl _
    cases h.fate ⟨(e.after as).next⟩ as with
    | promised hT hpromise =>
      cases hpromise with
      | unmade hT hR hp hw hs => exact ⟨hp, hw⟩
      | owed hp ho => exact absurd ho.lt_next hlast
      | closing hp hc hR => exact absurd hc.lt_next hlast
      | decided hp hd hn => exact absurd hn hlast
      | panicked hpanicked => exact absurd hpanicked hT
    | ruptured hT hruptured => exact absurd hruptured.lt_next hlast
  have hparty : ∀ s ∈ (e.after as).account.strands, ¬ s.IsParty ⟨(e.after as).next⟩ :=
    Multiset.filter_eq_nil.1 hparties
  refine ⟨fun t ht f hf => ?_, fun x hx hk => ?_⟩
  · have hframe : f ∈ (e.after as).frames := List.mem_flatMap.2 ⟨t, ht, hf⟩
    cases f with
    | opening r q resuming => exact ⟨by simp [Frame.receiver?], by simp [Frame.owed?]⟩
    | driving o c stage =>
      have hnot := hparty ⟨o, c, stage.phase⟩
        (Multiset.mem_add.2 (.inl (List.mem_filterMap.2 ⟨_, hframe, rfl⟩)))
      exact ⟨fun heq => hnot (.inr heq), fun heq => hnot (.inl heq)⟩
    | receiving r k =>
      refine ⟨?_, by simp [Frame.owed?]⟩
      rintro ⟨⟩
      refine absurd hwaiting (Multiset.count_pos.2 ?_).ne'
      exact List.mem_filterMap.2 ⟨_, hframe, rfl⟩
    | listening k => exact ⟨by simp [Frame.receiver?], by simp [Frame.owed?]⟩
  · exact hparty x.strand (Multiset.mem_add.2 (.inr (List.mem_map_of_mem hx))) (.inl hk)

namespace IsUnmade

variable {m : Engine} {k : CompletionId}

theorem hush_eq (h : m.IsUnmade k) (ht : t ∈ m.tasks) : t.hush n (some k) = t := by
  refine Task.hush_of_frames (by simp) fun f hf => ?_
  obtain ⟨hreceiver, howed⟩ := h.frames t ht f hf
  exact Frame.hush_of_ne (.inl hreceiver) (.inl howed)

theorem awaits_eq (h : m.IsUnmade k) (ht : t ∈ m.tasks) : t.awaits (some k) = false := by
  rw [Bool.eq_false_iff]
  intro haw
  obtain ⟨r, j, below, hj, hframes⟩ := Task.awaits_iff.1 haw
  cases hj
  exact (h.frames t ht (.receiving r k) (hframes ▸ List.mem_cons_self)).1 rfl

/-- The completion is where the call is, once it has it. -/
theorem isRooted_putTask (h : m.IsUnmade k) (hu : u.number = n)
    (hposts : u.posts = [⟨some k, some r⟩]) :
    ∀ x ∈ (m.putTask u).tasks, x.IsRooted n r (some k) := by
  intro x hx
  obtain ⟨y, hy, rfl⟩ := List.mem_map.1 hx
  split
  · show Post.Rooted n r (some k) u.number u.posts
    rw [hposts]
    refine ⟨fun j hj p hp => ?_, fun j hj p hp hpj => ?_⟩
    · cases hp
    · rw [List.mem_singleton.1 hp]
      exact ⟨rfl, hu⟩
  · have hnot : ∀ p ∈ y.posts, p.receiver ≠ some k := by
      intro p hp
      obtain ⟨g, hg, rfl⟩ := List.mem_map.1 hp
      exact (h.frames y hy g hg).1
    refine ⟨?_, ?_⟩
    · rintro j ⟨⟩ p hp
      exact hnot p (List.dropLast_subset _ hp)
    · rintro j ⟨⟩ p hp hpj
      exact absurd hpj (hnot p hp)

end IsUnmade

namespace Hushes

variable {m m' : Engine} {k : CompletionId} {u' : Task}

theorem tasks_none (h : m.Hushes n none m') : m'.tasks = m.tasks.map (Task.hush n none) := by
  rw [h.tasks]
  simp

/-- Once the call has its completion, it is that which is not made in the hushed engine. -/
theorem putTask_made (h : m.Hushes n none m') (hk : m.IsUnmade k) (hu : u.number = n)
    (hu' : u.hush n (some k) = u') (haw : u.awaits (some k) = false) :
    (m.putTask u).Hushes n (some k) (m'.putTask u') := by
  have hnone : m'.scheduler = m.scheduler := by
    rw [h.scheduler]
    exact Scheduler.hush_of_ne fun _ _ => Or.symm (em _)
  refine { h with tasks := ?_, scheduler := ?_, settled := fun i _ => h.settled i (by simp) }
  · have hnumber : u'.number = n := hu' ▸ hu
    have hall : ((m.putTask u).tasks.filter fun t => !t.awaits (some k)) = (m.putTask u).tasks := by
      refine List.filter_eq_self.2 fun x hx => ?_
      obtain ⟨t, ht, rfl⟩ := List.mem_map.1 hx
      split
      · simp [haw]
      · simp [hk.awaits_eq ht]
    rw [hall]
    show m'.tasks.map _ = (m.tasks.map _).map _
    rw [h.tasks_none, List.map_map, List.map_map]
    refine List.map_congr_left fun t ht => ?_
    show (if (t.hush n none).number == u'.number then u' else t.hush n none) =
      (if t.number == u.number then u else t).hush n (some k)
    rw [show (t.hush n none).number = t.number from rfl, hnumber, hu]
    by_cases htn : t.number = n
    · simp [htn, hu']
    · have hsame : t.hush n none = t :=
        Task.hush_of_frames (fun hmute => htn hmute.2) fun f _ => f.hush_none
      simp [htn, hsame, hk.hush_eq ht]
  · show m'.scheduler = m.scheduler.hush (some k)
    rw [hnone, Scheduler.hush_of_ne fun x hx => .inl (hk.armed x hx)]

end Hushes

/-- Nobody has been told anything when the run starts. -/
theorem Sound.hushes_run {m : Engine} (h : m.Sound S) (r : RunnerId) (τ : Token) (q : Request) :
    (m.act (.run r τ { q with wait := true })).Hushes m.next none
      (m.act (.run r τ { q with wait := false })) := by
  refine ⟨?_, ?_, fun _ _ => rfl, rfl, rfl, rfl, rfl, rfl, rfl, rfl, rfl, rfl, rfl, rfl, rfl, rfl⟩
  · have hall : ((m.act (.run r τ { q with wait := true })).tasks.filter fun t => !t.awaits none) =
        (m.act (.run r τ { q with wait := true })).tasks :=
      List.filter_eq_self.2 fun t _ => by simp
    have hold : m.tasks.map (Task.hush m.next none) = m.tasks := by
      refine (List.map_congr_left fun t ht => ?_).trans (List.map_id _)
      exact Task.hush_of_frames (fun hmute => (h.lt_next t ht).ne hmute.2) fun f _ => f.hush_none
    rw [hall]
    show m.tasks ++ _ = (m.tasks ++ _).map _
    rw [List.map_append, hold]
    simp [Task.hush, Task.doing, Frame.mute]
  · exact (Scheduler.hush_of_ne fun _ _ => Or.symm (em _)).symm

/-- What comes of the requests of two calls, one of which will wait, when they are opened. -/
inductive CallOpens (n : Nat) (r : RunnerId) (w f : Engine) : Prop
  | declines {x : Ending} (h : (w.act (.advance n)).Hushes n none (f.act (.advance n)))
      (hw : (w.act (.advance n)).endings = w.endings ++ [(n, x)])
      (hf : (f.act (.advance n)).endings = f.endings ++ [(n, x)])
      (hover : ∀ u ∈ (w.act (.advance n)).tasks, u.number ≠ n)
  | starts {u : Task} {c : Chain} {i : Nat}
      (h : (w.act (.advance n)).Hushes n (some ⟨w.next⟩) (f.act (.advance n)))
      (hr : (w.act (.advance n)).IsRooted n r (some ⟨w.next⟩))
      (hu : u ∈ (w.act (.advance n)).tasks) (hnumber : u.number = n)
      (hframes : u.frames = [.driving (.call r (some ⟨w.next⟩)) c (.entering i)])
      (hf : ∃ u' ∈ (f.act (.advance n)).tasks, u'.number = n)

section

variable {w f : Engine} {q : Request} (hh : w.Hushes n none f) (hr : w.IsRooted n r none)
  (hw : w.Sound S) (hf : f.Sound S) (ht : t ∈ w.tasks) (hn : t.number = n) (hp : t.parked = false)
  (hframes : t.frames = [.opening r { q with wait := true } false])
  (hunmade : w.IsUnmade ⟨w.next⟩)
include hh hr hw hf ht hn hp hframes hunmade

/-- **A call that waits and one that does not are opened alike.** -/
theorem Hushes.callOpens : CallOpens n r w f := by
  subst hn
  have haw := t.awaits_none
  have htask := hw.task?_of_mem ht
  have htask' := hh.task?_eq hf ht haw
  have hframes' : (t.hush t.number none).frames = [.opening r { q with wait := false } false] := by
    simp [Task.hush, Task.doing, hframes, Frame.mute]
  have ht' : t.hush t.number none ∈ f.tasks := (task?_eq_some htask').1
  have hmove : w.move t = w.moveOpening t [] r { q with wait := true } false :=
    Engine.move_opening hp hframes
  have hmove' : f.move (t.hush t.number none) =
      f.moveOpening (t.hush t.number none) [] r { q with wait := false } false := by
    have hp' : (t.hush t.number none).parked = false := hp
    exact Engine.move_opening hp' hframes'
  have hopens := hh.opens t (t.hush t.number none) [] [] r { q with wait := true } false false
  rw [← hmove, ← hmove'] at hopens
  generalize hμ : w.move t = μ at hopens
  generalize hμ' : f.move (t.hush t.number none) = μ' at hopens
  cases hopens with
  | @declines m m' hm reply =>
    obtain ⟨x, hx⟩ : ∃ x, ∀ (e : Engine) (t : Task), e.answer t [] reply = .over e x := by
      cases reply <;> exact ⟨_, fun _ _ => rfl⟩
    rw [hx] at hμ hμ'
    have hact : w.act (.advance t.number) = m.endTask t.number x := Engine.act_advance_over htask hμ
    have hact' : f.act (.advance t.number) = m'.endTask t.number x :=
      Engine.act_advance_over htask' hμ'
    refine .declines ?_ (hw.endings_over ht hμ) (hf.endings_over ht' hμ') ?_
    · rw [hact, hact']
      exact hm.endTask _ x
    · intro u hu
      rw [hact] at hu
      exact bne_iff_ne.1 (List.mem_filter.1 hu).2
  | @starts m m' c i hm htasks hscheduler hnext =>
    obtain ⟨hnumber, hmem⟩ := hw.mem_tasks_advance ht hμ
    obtain ⟨hnumber', hmem'⟩ := hf.mem_tasks_advance ht' hμ'
    have hmade : m.IsUnmade ⟨w.next⟩ := by
      refine ⟨?_, ?_⟩
      · rw [htasks]
        exact hunmade.frames
      · rw [hscheduler]
        exact hunmade.armed
    have hact : w.act (.advance t.number) = m.putTask (t.doing
        [.driving (.call r (some ⟨w.next⟩)) { c with completion := some ⟨w.next⟩ }
          (.entering i)]) := Engine.act_advance_on htask hμ
    have hact' : f.act (.advance t.number) = m'.putTask ((t.hush t.number none).doing
        [.driving (.call r none) { c with completion := none } (.entering i)]) :=
      Engine.act_advance_on htask' hμ'
    refine .starts (c := { c with completion := some ⟨w.next⟩ }) (i := i) ?_ ⟨?_, ?_, ?_, ?_⟩ hmem
      hnumber rfl ⟨_, hmem', hnumber'⟩
    · rw [hact, hact']
      refine hm.putTask_made hmade rfl ?_ rfl
      simp [Task.hush, Task.doing, Frame.hush, Origin.hush_of_eq, Chain.hush]
    · rw [hact]
      exact hmade.isRooted_putTask rfl rfl
    · exact (hw.retains _).held _ hr.held (by simp)
    · rintro j ⟨⟩
      rw [hact]
      exact hnext.ge
    · exact hr.number_lt.trans_le (hw.next_le _)

end

end Engine

end DurableFlow
