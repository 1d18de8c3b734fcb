import DurableFlow.Proofs.Cancellation.CancelledRuns
import DurableFlow.Proofs.NestedRuns.UnawaitedCalls
import DurableFlow.Proofs.Settlement.KnownEnds
import DurableFlow.Proofs.Settlement.BrokenPromises

/-!
# Callers who are told of a cancellation

A call that waits is told that it is cancelled if its chain gives up under a cancelled token, and if
nobody is left who could tell it anything else. The tokens in question are that of its run and those
of the delays after which the chain goes on (`Engine.IsNew.runsUnder`). A task gives up under a
cancelled token only (`Engine.IsNew.isCancelled_of_withdrawn`).

Main statement: a caller who is told so has a chain whose token was cancelled, or that was taken
away; or a step of it panicked after a delay (`Engine.IsNew.withdrawn`), and then nothing may have
been cancelled (`AwaitedDelay.misled`).
-/

namespace DurableFlow

namespace Frame

/-- Whether a frame has given up its chain because of a cancellation. -/
def isWithdrawn : Frame → Bool
  | driving _ _ (.halting .cancelled) => true
  | _ => false

theorem isWithdrawn_iff {f : Frame} :
    f.isWithdrawn = true ↔ ∃ o c, f = driving o c (.halting .cancelled) := by
  constructor
  · intro h
    unfold isWithdrawn at h
    split at h
    · exact ⟨_, _, rfl⟩
    · cases h
  · rintro ⟨o, c, rfl⟩
    rfl

theorem mem_of_mem_resumed {f : Frame} {reply : Reply} {below : List Frame}
    (hf : f ∈ resumed reply below) (hw : f.isWithdrawn = true) : f ∈ below := by
  unfold resumed at hf
  split at hf
  · rcases List.mem_cons.1 hf with rfl | hf
    · cases hw
    · exact List.mem_cons_of_mem _ hf
  · cases hf

theorem mem_of_mem_departed {f : Frame} {o : Origin} {reply : Reply} {below : List Frame}
    (hf : f ∈ departed o reply below) (hw : f.isWithdrawn = true) : f ∈ below := by
  unfold departed at hf
  split at hf
  · rcases List.mem_cons.1 hf with rfl | hf
    · cases hw
    · exact hf
  · exact mem_of_mem_resumed hf hw

end Frame

namespace Engine

variable {S : Standard} {e m m' : Engine} {as bs : List Act} {a : Act} {t u : Task} {f : Frame}
  {below : List Frame} {o : Origin} {c c' : Chain} {d : Deed} {k : CompletionId} {τ : Token}

/-! ## Giving up -/

/-- A step that goes on is not given up. -/
theorem not_withdrawn_of_moveInside {i : Nat} {b : Behaviour}
    (hd : m.deed? t.token c (.inside i b) = none)
    (hmove : m.moveInside t below o c i b = .on m' u)
    (hu : u.frames = .driving o c' (.halting .cancelled) :: below)
    (ht : t.frames = .driving o c (.inside i b) :: below) : False := by
  cases b with
  | finish context outcome => cases hd
  | panic context payload => cases hd
  | await context signal rest =>
    simp only [moveInside] at hmove
    split at hmove
    · cases hmove
      cases hu
    · cases hmove
      cases ht.symm.trans hu
  | _ =>
    cases hmove
    cases hu

/-- A chain that is taken on gives up when it is about to execute a step, and notices that its
token is cancelled. -/
theorem isCancelled_of_goes {stage : Stage} {p p' : Nat} (hp : t.parked = false)
    (ht : t.frames = .driving o c stage :: below) (hmove : m.move t = .on m' u)
    (hu : u.frames = .driving o c' (.halting .cancelled) :: below)
    (hgo : Goes p c stage.phase (m.deed? t.token c stage).toList p' c' (.halting .cancelled)) :
    m.isCancelled t.token = true := by
  cases stage with
  | entering i =>
    simp only [deed?] at hgo
    split at hgo
    · cases hgo
    · split at hgo
      · assumption
      · cases hgo
  | inside i b =>
    cases hd : m.deed? t.token c (.inside i b) with
    | none =>
      have hinside : m.moveInside t below o c i b = .on m' u := by
        simpa [move_driving hp ht, moveDriving] using hmove
      exact (not_withdrawn_of_moveInside hd hinside hu ht).elim
    | some d =>
      rw [hd] at hgo
      have hgo : Goes p c (.within i) [d] p' c' (.halting .cancelled) := hgo
      cases hgo with
      | misjump hr hplan =>
        obtain ⟨label, -, -, heq⟩ := Plan.error_cases hplan
        cases heq
  | calling i next => simp [move_driving hp ht, moveDriving] at hmove
  | acting plan =>
    have hgo : Goes p c (.acting plan) (m.deed? t.token c (.acting plan)).toList p' c'
        (.halting .cancelled) := hgo
    generalize (m.deed? t.token c (.acting plan)).toList = ds at hgo
    cases hgo
  | halting fault => cases hgo

/-- **A move gives up a chain under a cancelled token only.** -/
theorem withdrawn_of_move (h : t.Sound S) (hmove : m.move t = .on m' u) (hf : f ∈ u.frames)
    (hw : f.isWithdrawn = true) : f ∈ t.frames ∨ m.isCancelled t.token = true := by
  cases hp : t.parked with
  | true =>
    -- A task that waits is given up, or looked at again.
    have hlooks := m.looks_move hp
    rw [hmove] at hlooks
    generalize m.deedsOf t = ds, m.told t = ts at hlooks
    cases hlooks with
    | giveUp hc => exact .inr hc
    | takeUp => exact .inl hf
  | false =>
    obtain ⟨rested, woken, -, hturns, -⟩ := turned_of_on h hmove
    have below : ∀ {g : Frame} {below : List Frame}, t.frames = g :: below → f ∈ below →
        f ∈ t.frames := fun ht hf => ht ▸ List.mem_cons_of_mem _ hf
    have cons : ∀ {g g' : Frame} {rest : List Frame}, t.frames = g :: rest →
        g'.isWithdrawn = false → f ∈ g' :: rest → f ∈ t.frames := by
      intro g g' rest ht hg hf
      rcases List.mem_cons.1 hf with rfl | hf
      · cases hg.symm.trans hw
      · exact below ht hf
    generalize hu : u.frames = frames at hf hturns
    generalize m.deedsOf t = ds at hturns
    cases hturns with
    | look _ => exact .inl hf
    | abandon _ _ _ hc => exact .inr hc
    | decline ht => exact .inl (below ht (Frame.mem_of_mem_resumed hf hw))
    | start ht _ _ => exact .inl (cons ht rfl hf)
    | stay ht _ => exact .inl (cons ht rfl hf)
    | launch ht =>
      rcases List.mem_cons.1 hf with rfl | hf
      · cases hw
      · exact .inl (cons ht rfl hf)
    | rest ht => exact .inl (below ht (Frame.mem_of_mem_departed hf hw))
    | stop ht => exact .inl (below ht (Frame.mem_of_mem_departed hf hw))
    | halt ht => exact .inl (below ht (Frame.mem_of_mem_resumed hf hw))
    | panic ht => exact .inl (below ht (Frame.mem_of_mem_resumed hf hw))
    | receive ht => exact .inl (below ht (Frame.mem_of_mem_resumed hf hw))
    | @go o c stage rest d p p' c' stage' ht _ hd _ hgo =>
      rcases List.mem_cons.1 hf with rfl | hf
      · obtain ⟨_, _, heq⟩ := Frame.isWithdrawn_iff.1 hw
        cases heq
        exact .inr (isCancelled_of_goes hp ht hmove hu (hd ▸ hgo))
      · exact .inl (below ht hf)

/-- **Whoever has given up is under a cancelled token.** -/
theorem IsNew.isCancelled_of_withdrawn (h : e.IsNew) (as : List Act)
    (ht : t ∈ (e.after as).tasks) (hf : f ∈ t.frames) (hw : f.isWithdrawn = true) :
    (e.after as).isCancelled t.token = true := by
  induction as using List.reverseRecOn generalizing t with
  | nil =>
    rw [after_nil, h.tasks] at ht
    cases ht
  | append_singleton as a ih =>
    have hsound : (e.after as).Sound .any := (h.sound .any).after_any as
    rw [after_concat] at ht ⊢
    refine isCancelled_mono (hsound.retains a).cancelled ?_
    obtain ht | ⟨t₀, ht₀, rfl, m', hmove⟩ | ⟨-, ⟨token, f', ha, hframes⟩ | ⟨c, i, hframes⟩⟩ :=
      hsound.task_of_act ht
    · exact ih ht hf
    · obtain ⟨_, _, -, -, -, htoken, -⟩ := turned_of_on (hsound.tasks t₀ ht₀) hmove
      rw [htoken]
      obtain hold | hc := withdrawn_of_move (hsound.tasks t₀ ht₀) hmove hf hw
      · exact ih ht₀ hold
      · exact hc
    · rw [hframes, List.mem_singleton] at hf
      subst hf
      cases a with
      | run => cases ha; cases hw
      | resume => cases ha; cases hw
      | _ => cases ha
    · rw [hframes, List.mem_singleton] at hf
      subst hf
      cases hw

/-! ## The tokens of a run -/

/-- The chain that was to keep the promise was started under that token. -/
def RunsUnder (e : Engine) (k : CompletionId) (τ : Token) (as : List Act) : Prop :=
  ∃ before t after c i, as = before ++ .advance t.number :: after ∧
    t ∈ (e.after before).tasks ∧ t.token = τ ∧
    c.completion = some k ∧ (c, .started i) ∈ (e.after before).deeds (.advance t.number)

theorem RunsUnder.append (h : e.RunsUnder k τ as) (bs : List Act) : e.RunsUnder k τ (as ++ bs) := by
  obtain ⟨before, t, after, c, i, rfl, hrest⟩ := h
  exact ⟨before, t, after ++ bs, c, i, by simp, hrest⟩

/-- **Whoever owes a completion or waits for it goes on under the token of its run**, or under that
of a delay below it. -/
theorem IsNew.runsUnder (h : e.IsNew) (as : List Act) :
    ∀ m ∈ (e.after as).members, ∀ k ∈ m.completions,
      ∃ τ, e.RunsUnder k τ as ∧ m.token.isWithin τ = true := by
  induction as using List.reverseRecOn with
  | nil => exact fun m hm => absurd hm (h.not_mem_members m)
  | append_singleton as a ih =>
    have hsound : (e.after as).Sound .any := (h.sound .any).after_any as
    have later : ∀ {m k}, m ∈ (e.after as).members → k ∈ m.completions →
        ∃ τ, e.RunsUnder k τ (as ++ [a]) ∧ m.token.isWithin τ = true := by
      intro m k hm hk
      obtain ⟨τ, hτ, hwithin⟩ := ih m hm k hk
      exact ⟨τ, hτ.append [a], hwithin⟩
    intro m hm
    rw [after_concat] at hm
    have hstems := hsound.stems a m hm
    clear hm
    induction hstems with
    | keep hm => exact fun k => later hm
    | @left t rested left t' ht ha hyields ht' =>
      intro k hk
      have hframes : left.elim [] Task.frames = t'.frames := by
        rw [Option.mem_def.1 ht']
        rfl
      have hcompletions := hyields.turns.completions.1
      rw [hframes] at hcompletions
      have htoken : t'.token = t.token := hyields.token t' ht'
      obtain hk | ⟨-, c, i, hc, hstarted⟩ := hcompletions k hk
      · obtain ⟨τ, hτ, hwithin⟩ := later ht (k := k) hk
        refine ⟨τ, hτ, ?_⟩
        show t'.token.isWithin τ = true
        rw [htoken]
        exact hwithin
      · subst ha
        refine ⟨t.token, ⟨as, t, [], c, i, rfl, mem_tasks_of_members ht, rfl, hc, hstarted⟩, ?_⟩
        show t'.token.isWithin t.token = true
        rw [htoken]
        exact Token.isWithin_self _
    | @rested t rested left x ht ha hyields hx =>
      intro k hk
      obtain ⟨τ, hτ, hwithin⟩ := later ht (k := k)
        (hyields.turns.completions.2 x hx k (Option.mem_toList.1 hk))
      refine ⟨τ, hτ, ?_⟩
      show x.token.isWithin τ = true
      rw [(hyields.turns.of_rested x hx).1]
      exact Token.isWithin_trans (Token.isWithin_child _ _) hwithin
    | start ha =>
      intro k hk
      cases a with
      | run => cases ha; cases hk
      | resume => cases ha; cases hk
      | _ => cases ha
    | @woken x hx n hn ih =>
      intro k hk
      have hk : k ∈ (Member.timer x).completions := by
        simpa [Member.completions, Timer.task, Frame.completions, Frame.owed?, Frame.receiver?,
          Origin.receiver?] using hk
      exact ih k hk

/-! ## How chains come to their ends -/

/-- How a chain comes to its end by an act: its last deed, and who had to do with it. -/
inductive Finishes (e : Engine) (c : Chain) : Act → Deed → Member → Prop
  | stop {t o result below} (ht : t ∈ e.tasks) (hp : t.parked = false)
      (hframes : t.frames = .driving o c (.acting ⟨[], .stop result⟩) :: below) :
      Finishes e c (.advance t.number) (.stopped result) (.task t)
  | halt {t o fault below} (ht : t ∈ e.tasks) (hp : t.parked = false)
      (hframes : t.frames = .driving o c (.halting fault) :: below) :
      Finishes e c (.advance t.number) (.halted fault) (.task t)
  | panic {t o i context payload below} (ht : t ∈ e.tasks) (hp : t.parked = false)
      (hframes : t.frames = .driving o c (.inside i (.panic context payload)) :: below) :
      Finishes e c (.advance t.number) .panicked (.task t)
  /-- The outermost step of the task is given up, and with it what it waits for. -/
  | abandon {t o stage} (ht : t ∈ e.tasks) (hp : t.parked = true)
      (hc : e.isCancelled t.token = true) (hgive : (Engine.abandon t).isSome = true)
      (hframe : .driving o c stage ∈ t.frames.dropLast) :
      Finishes e c (.advance t.number) .lost (.task t)
  | drop {place x} (hx : e.scheduler.timers.armed[place]? = some x) (hchain : x.work.chain = c)
      (hc : e.isCancelled x.token = true) : Finishes e c (.drop place) .dropped (.timer x)
  | take {place x} (hx : e.scheduler.timers.armed[place]? = some x) (hchain : x.work.chain = c)
      (hc : e.isCancelled x.token = false) : Finishes e c (.drop place) .lost (.timer x)
  | cut {t o stage} (ht : t ∈ e.tasks) (hframe : .driving o c stage ∈ t.frames) :
      Finishes e c (.cut t.number) .lost (.task t)

/-- Every last deed is one of those. -/
theorem finishes_of_isLast (hd : (c, d) ∈ e.deeds a) (hlast : d.isLast = true) :
    ∃ m, e.Finishes c a d m := by
  cases a with
  | advance n =>
    simp only [deeds] at hd
    split at hd
    · rename_i t ht
      obtain ⟨hmem, rfl⟩ := task?_eq_some ht
      obtain ⟨hp, hc, hgive, rfl, o, stage, hframe⟩ | ⟨hp, o, below, ⟨result, hframes, rfl⟩ |
        ⟨fault, hframes, rfl⟩ | ⟨i, context, payload, hframes, rfl⟩⟩ := deedsOf_isLast hd hlast
      · exact ⟨_, .abandon hmem hp hc hgive hframe⟩
      · exact ⟨_, .stop hmem hp hframes⟩
      · exact ⟨_, .halt hmem hp hframes⟩
      · exact ⟨_, .panic hmem hp hframes⟩
    · cases hd
  | drop place =>
    simp only [deeds] at hd
    split at hd
    · rename_i x hx
      cases List.mem_singleton.1 hd
      cases hc : e.isCancelled x.token with
      | true => exact ⟨_, .drop hx rfl hc⟩
      | false => exact ⟨_, .take hx rfl hc⟩
    · cases hd
  | cut n =>
    simp only [deeds] at hd
    split at hd
    · rename_i t ht
      obtain ⟨hmem, rfl⟩ := task?_eq_some ht
      obtain ⟨c', hc', heq⟩ := List.mem_map.1 hd
      cases heq
      obtain ⟨f, hf, hchain⟩ := List.mem_filterMap.1 hc'
      cases f with
      | driving o c' stage =>
        cases hchain
        exact ⟨_, .cut hmem hf⟩
      | _ => cases hchain
    · cases hd
  | _ => cases hd

namespace Finishes

variable {x : Member}

theorem mem (h : e.Finishes c a d x) : x ∈ e.members := by
  have timer : ∀ {place : Nat} {x : Timer Continuation},
      e.scheduler.timers.armed[place]? = some x → .timer x ∈ e.members := fun hx =>
    Multiset.mem_add.2 (.inr (Member.mem_timers.2 ⟨_, List.mem_of_getElem? hx, rfl⟩))
  cases h with
  | drop hx => exact timer hx
  | take hx => exact timer hx
  | stop ht => exact task_mem_members ht
  | halt ht => exact task_mem_members ht
  | panic ht => exact task_mem_members ht
  | abandon ht => exact task_mem_members ht
  | cut ht => exact task_mem_members ht

/-- The member owes what the chain does. -/
theorem mem_completions (h : e.Finishes c a d x) (hk : c.completion = some k) :
    k ∈ x.completions := by
  have top : ∀ {t : Task} {o stage}, .driving o c stage ∈ t.frames →
      k ∈ (Member.task t).completions := fun hframe =>
    List.mem_flatMap.2 ⟨_, hframe, Frame.mem_completions_driving.2 (.inl hk)⟩
  cases h with
  | drop _ hchain =>
    subst hchain
    exact Option.mem_toList.2 hk
  | take _ hchain =>
    subst hchain
    exact Option.mem_toList.2 hk
  | stop _ _ hframes => exact top (hframes ▸ List.mem_cons_self)
  | halt _ _ hframes => exact top (hframes ▸ List.mem_cons_self)
  | panic _ _ hframes => exact top (hframes ▸ List.mem_cons_self)
  | abandon _ _ _ _ hframe => exact top (List.dropLast_subset _ hframe)
  | cut _ hframe => exact top hframe

end Finishes

/-- A panic that is not told to the caller who waits happens after a delay. -/
theorem IsNew.panicked_after_delay (h : e.IsNew) {before after : List Act}
    (has : as = before ++ a :: after) {i : Nat} {context : Context} {payload : Panic}
    (ha : a = .advance t.number) (ht : t ∈ (e.after before).tasks) (hp : t.parked = false)
    (hframes : t.frames = .driving o c (.inside i (.panic context payload)) :: below)
    (hk : c.completion = some k) (hsilent : some (.panicked payload) ∉ e.answers k as) :
    o = .continuation := by
  subst ha has
  have hsound : (e.after before).Sound .any := (h.sound .any).after_any before
  obtain ⟨-, howes⟩ := h.owes_of_mem (strand_mem_account ht (driving_mem_strands hframes)) hk
  obtain ⟨⟨r, ho⟩, -⟩ | ⟨ho, -⟩ := howes.caller
  · refine absurd ?_ hsilent
    have ho : o = .call r (some k) := ho
    subst ho
    have hreplies : (e.after before).replies (.advance t.number) =
        [(k, some (.panicked payload))] := by
      simp [replies, hsound.task?_of_mem ht, told, hp, hframes]
    have hsplit : before ++ .advance t.number :: after =
        before ++ [.advance t.number] ++ after := by simp
    rw [hsplit]
    refine (e.answers_prefix k _ after).subset ?_
    rw [answers_concat, hreplies]
    exact List.mem_append_right _ (by simp [Reply.to])
  · exact ho

/-- **A caller who waits is told that it is cancelled only for a reason.** Its chain has come to its
end under a cancelled token, that of the run or of a delay of it; or it was taken away from outside;
or a step of it has panicked after a delay. -/
theorem IsNew.withdrawn (h : e.IsNew)
    (htold : some (.settled (.error (.fault .cancelled))) ∈ e.answers k as) :
    ∃ before a after c d x τ, as = before ++ a :: after ∧ c.completion = some k ∧
      (e.after before).Finishes c a d x ∧ e.RunsUnder k τ before ∧ x.token.isWithin τ = true ∧
      ((e.after before).isCancelled x.token = true ∨ a.isRemoval = true ∨
        d = .panicked ∧ ∃ φ, ⟨.continuation, c, φ⟩ ∈ x.strands) := by
  -- The last deed tells under which token the chain went on.
  suffices hend : ∃ before a after c d x, as = before ++ a :: after ∧ c.completion = some k ∧
      (e.after before).Finishes c a d x ∧ ((e.after before).isCancelled x.token = true ∨
        a.isRemoval = true ∨ d = .panicked ∧ ∃ φ, ⟨.continuation, c, φ⟩ ∈ x.strands) by
    obtain ⟨before, a, after, c, d, x, has, hk, hx, hcause⟩ := hend
    obtain ⟨τ, hτ, hwithin⟩ := h.runsUnder before x hx.mem k (hx.mem_completions hk)
    exact ⟨before, a, after, c, d, x, τ, has, hk, hx, hτ, hwithin, hcause⟩
  cases h.fate k as with
  | promised hT hpromise =>
    have hpanic : ∀ d ∈ e.tale k as, d.isPanic = false := by
      intro d hd
      cases d with
      | panicked => exact absurd hd hT
      | _ => rfl
    have hverdict := h.verdict_of_answer hpanic htold
    have hend : ∃ d ∈ e.tale k as, d = .lost ∨ d = .dropped ∨ d = .halted .cancelled := by
      obtain hd | hd | hd := hverdict.cancelled_cases
      · exact ⟨_, hd, .inl rfl⟩
      · exact ⟨_, hd, .inr (.inl rfl)⟩
      · exact ⟨_, hd, .inr (.inr rfl)⟩
    obtain ⟨d, hd, hcases⟩ := hend
    obtain ⟨before, a, after, c, has, hk, hdeed⟩ := mem_tale hd
    obtain ⟨x, hx⟩ := finishes_of_isLast hdeed (by obtain rfl | rfl | rfl := hcases <;> rfl)
    refine ⟨before, a, after, c, d, x, has, hk, hx, ?_⟩
    cases hx with
    | stop => simp at hcases
    | panic => simp at hcases
    | halt ht hp hframes =>
      obtain rfl : _ = Fault.cancelled := by simpa using hcases
      exact .inl (h.isCancelled_of_withdrawn before ht (hframes ▸ List.mem_cons_self) rfl)
    | abandon _ _ hc _ _ => exact .inl hc
    | drop _ _ hc => exact .inl hc
    | take => exact .inr (.inl rfl)
    | cut => exact .inr (.inl rfl)
  | ruptured hT hruptured =>
    obtain ⟨before, a, after, c, has, hk, hdeed⟩ := mem_tale hT
    obtain ⟨x, hx⟩ := finishes_of_isLast hdeed rfl
    refine ⟨before, a, after, c, _, x, has, hk, hx, .inr (.inr ⟨rfl, ?_⟩)⟩
    cases hx with
    | @panic t o i context payload below ht hp hframes =>
      have hsilent : some (.panicked payload) ∉ e.answers k as := by
        intro hpanic
        obtain ⟨⟨payload', hone⟩, -⟩ | ⟨-, hnone⟩ := hruptured.caller
        · rw [hone] at htold
          simp at htold
        · simpa using hnone _ hpanic
      obtain rfl := h.panicked_after_delay has rfl ht hp hframes hk hsilent
      exact ⟨_, driving_mem_strands hframes⟩

end Engine

namespace AwaitedDelay

/-- A workflow that waits for a while before the rest of its steps. -/
def registry (rest : List Step) : Registry :=
  ⟨.put .empty "vigil" ⟨"vigil", .delay .moment :: rest⟩⟩

/-- A run of an instance up to its delay, for a caller who waits. -/
def rests (rest : List Step) : List Act :=
  [.addRunner (registry rest) .empty,
    .run ⟨0⟩ (.root 0) { workflow := "vigil", inst := some "x", wait := true }] ++
      .replicate 8 (.advance 2)

/-- The run is cancelled while its instance rests, and so its continuation is dropped. -/
def cancelActs : List Act :=
  rests [.log "done"] ++ [.cancel (.root 0), .drop 0] ++ .replicate 2 (.advance 2)

/-- The step after the delay panics. -/
def panicActs : List Act :=
  rests [{ execute := fun c => .panic c (.text "broken") }] ++
    .wake 0 :: .replicate 2 (.advance 5) ++ .replicate 2 (.advance 2)

/-- The caller is told of the cancellation of the run, under which its chain rested. -/
theorem relieved :
    some (.settled (.error (.fault .cancelled))) ∈ Greeting.engine.answers ⟨3⟩ cancelActs ∧
    ∃ before a after c d x τ, cancelActs = before ++ a :: after ∧ c.completion = some ⟨3⟩ ∧
      (Greeting.engine.after before).Finishes c a d x ∧
      Greeting.engine.RunsUnder ⟨3⟩ τ before ∧ x.token.isWithin τ = true ∧
      ((Greeting.engine.after before).isCancelled x.token = true ∨ a.isRemoval = true ∨
        d = .panicked ∧ ∃ φ, ⟨.continuation, c, φ⟩ ∈ x.strands) := by
  have hnew : Greeting.engine.IsNew := ⟨rfl, rfl, rfl, rfl⟩
  have htold : Greeting.engine.answers ⟨3⟩ cancelActs =
      [some (.settled (.error (.fault .cancelled)))] := rfl
  have hmem := htold ▸ List.mem_singleton_self _
  exact ⟨hmem, hnew.withdrawn hmem⟩

/-- **A panic after a delay is taken for a cancellation.** The caller is told that it is cancelled,
although no token has been cancelled and nothing has been taken away. -/
theorem misled :
    Greeting.engine.IsNew ∧
      Greeting.engine.answers ⟨3⟩ panicActs = [some (.settled (.error (.fault .cancelled)))] ∧
      (Greeting.engine.after panicActs).cancelled = [] ∧
      ∀ a ∈ panicActs, a.isRemoval = false :=
  ⟨⟨rfl, rfl, rfl, rfl⟩, rfl, rfl, by decide +kernel⟩

end AwaitedDelay

end DurableFlow
