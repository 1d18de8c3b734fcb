import DurableFlow.Proofs.Isolation.Mirrors
import DurableFlow.Proofs.Histories.MoveEffects

/-!
# Moves and their mirrors

A task of a family, moved in an engine and in one that mirrors the family, does the same in both: it
sees the same of its engine, and what it does there leaves the one a mirror of the other. A task of
others leaves the mirror as it is, but for a number that it may draw and a token of the family that
it may cancel. In both cases a continuation that is due may go off at the end of the move; in the
mirror nothing goes off by itself.

Main statements: `Engine.Mirrors.move`, `Engine.Mirrors.deedsOf_eq`, `Engine.Mirrors.passesBy`.
-/

namespace DurableFlow

/-- The instance that a frame is to find by its identity. -/
def Frame.requested? : Frame → Option String
  | .opening _ q _ => q.inst
  | _ => none

namespace Engine

/-- What is due goes off at the end of a move by which a chain is laid to rest, and nothing does at
the end of another move. -/
inductive Releases (e : Engine) : Engine → Engine → Prop
  | still {m : Engine} (htasks : m.tasks = e.tasks) (hle : e.identities ≤ m.identities) :
      Releases e m m
  | due (c : Chain) (τ : Token) (next : Nat) (due : Instant) :
      Releases e (e.lay c τ next due).1 (e.lay c τ next due).1.releaseDue

/-- The instances of a family are not those of others, and the runners of others are held from
outside. -/
structure IsApart (own : Nat → Bool) (ids : String → Bool) (e : Engine) : Prop where
  chains : ∀ t ∈ e.tasks, ∀ f ∈ t.frames, ∀ c ∈ f.chain?, ids c.inst = own t.number
  resting : ∀ x ∈ e.scheduler.timers.armed, ids x.work.chain.inst = own x.work.delay
  requests : ∀ t ∈ e.tasks, own t.number = true → ∀ f ∈ t.frames, ∀ x ∈ f.requested?, ids x = true
  runners : ∀ t ∈ e.tasks, own t.number = false → ∀ f ∈ t.frames, ∀ r ∈ f.runner?, r ∈ e.held

instance (own : Nat → Bool) (ids : String → Bool) (e : Engine) : Decidable (e.IsApart own ids) :=
  decidable_of_iff
    ((∀ t ∈ e.tasks, ∀ f ∈ t.frames, ∀ c ∈ f.chain?, ids c.inst = own t.number) ∧
      (∀ x ∈ e.scheduler.timers.armed, ids x.work.chain.inst = own x.work.delay) ∧
      (∀ t ∈ e.tasks, own t.number = true → ∀ f ∈ t.frames, ∀ x ∈ f.requested?, ids x = true) ∧
      ∀ t ∈ e.tasks, own t.number = false → ∀ f ∈ t.frames, ∀ r ∈ f.runner?, r ∈ e.held)
    ⟨fun ⟨hchains, hresting, hrequests, hrunners⟩ => ⟨hchains, hresting, hrequests, hrunners⟩,
      fun h => ⟨h.chains, h.resting, h.requests, h.runners⟩⟩

/-- A family stands apart in an engine in which everything has a number of its own. -/
structure IsDivided (own : Nat → Bool) (ids : String → Bool) (e : Engine) : Prop where
  sound : e.Sound .any
  marked : e.IsMarked
  numbers : (e.members.map Member.number).Nodup
  kin : ∀ m ∈ e.members, m.IsKin own
  apart : e.IsApart own ids

end Engine

/-- Two moves mirror each other if what comes of them does; at the end of the first one, something
that is due may have gone off too. -/
inductive Move.Mirrors (own : Nat → Bool) (ids : String → Bool) (voice : Nat → String)
    (others : Nat) (e₀ : Engine) : Move → Move → Prop
  | blocked : Mirrors own ids voice others e₀ .blocked .blocked
  | on {m e e' : Engine} {t : Task} (h : m.Mirrors own ids voice others e')
      (hr : e₀.Releases m e) : Mirrors own ids voice others e₀ (.on e t) (.on e' t)
  | over {m e e' : Engine} {ending : Ending} (h : m.Mirrors own ids voice others e')
      (hr : e₀.Releases m e) : Mirrors own ids voice others e₀ (.over e ending) (.over e' ending)

namespace Engine

theorem tasks_lay (e : Engine) (c : Chain) (τ : Token) (next : Nat) (due : Instant) :
    (e.lay c τ next due).1.tasks = e.tasks := by
  rw [lay_eq]

theorem identities_lay (e : Engine) (c : Chain) (τ : Token) (next : Nat) (due : Instant) :
    (e.lay c τ next due).1.identities = e.identities := by
  rw [lay_eq]

theorem identities_publish (e : Engine) (notice : Notice) :
    (e.publish notice).1.identities = e.identities := by
  rw [publish_eq]

theorem Releases.refl (e : Engine) : e.Releases e e := .still rfl le_rfl

/-- By hand nothing goes off of its own accord. -/
theorem releaseDue_of_byHand {e : Engine} {mode : SchedulerMode}
    (h : e.scheduler.mode = mode.byHand) : e.releaseDue = e := by
  unfold releaseDue
  rw [h, if_neg (by cases mode <;> decide)]

variable {own : Nat → Bool} {ids : String → Bool} {voice : Nat → String} {others : Nat}
  {m e₀ e e' : Engine} {t : Task} {below : List Frame} {o : Origin} {c : Chain}

namespace Mirrors

/-- In the mirror a chain is laid to rest and nothing goes off. -/
theorem suspend_eq {chain : Chain} {token : Token} {next : Nat} {due : Instant}
    (h : m.Mirrors own ids voice others (e'.lay chain token next due).1) :
    e'.suspend chain token next due = e'.lay chain token next due := by
  have hmode := h.scheduler.mode
  rw [suspend_eq_lay]
  split
  · rename_i e₁ heq
    rw [heq] at hmode
    rw [releaseDue_of_byHand hmode, heq]
  · rename_i e₁ fault heq
    exact heq.symm

/-! ## What a task sees of its engine -/

section

variable (h : e.Mirrors own ids voice others e') (hd : e.IsDivided own ids)
include h hd

/-- Whether a completion of the family is owed depends on the family only. -/
theorem isOwed_eq {k : CompletionId} (hk : own k.number = true) : e'.isOwed k = e.isOwed k := by
  have htask : ∀ t ∈ e.tasks, (t.frames.any fun f => f.owed? == some k) = true →
      own t.number = true := by
    intro t ht howed
    obtain ⟨f, hf, howes⟩ := List.any_eq_true.1 howed
    have hmem : k ∈ (Member.task t).completions := by
      refine List.mem_flatMap.2 ⟨f, hf, List.mem_append_left _ ?_⟩
      exact Option.mem_toList.2 (beq_iff_eq.1 howes)
    exact ((hd.kin _ (task_mem_members ht)).completions k hmem).symm.trans hk
  have htimer : ∀ x ∈ e.scheduler.timers.armed, x.work.chain.completion = some k →
      own x.work.delay = true := by
    intro x hx howes
    have hmem : .timer x ∈ e.members := Multiset.mem_add.2 (.inr (Member.mem_timers.2 ⟨x, hx, rfl⟩))
    exact ((hd.kin _ hmem).completions k (Option.mem_toList.2 howes)).symm.trans hk
  rw [Bool.eq_iff_iff, isOwed, isOwed, Bool.or_eq_true, Bool.or_eq_true, h.tasks]
  refine or_congr ?_ ?_
  · simp only [List.any_eq_true, List.mem_filter]
    refine exists_congr fun t => ⟨And.imp_left And.left, fun howed => ?_⟩
    exact howed.imp_left fun ht => ⟨ht, htask t ht (List.any_eq_true.2 howed.2)⟩
  · simp only [Scheduler.continuations, List.any_map, List.any_eq_true,
      h.scheduler.armed.mem_iff, List.mem_filter]
    refine exists_congr fun x => ⟨And.imp_left And.left, fun howes => ?_⟩
    exact howes.imp_left fun hx => ⟨hx, htimer x hx (beq_iff_eq.1 howes.2)⟩

/-- Others keep no runner alive that is not held from outside. -/
theorem isAlive_eq (r : RunnerId) : e'.isAlive r = e.isAlive r := by
  have htask : ∀ t ∈ e.tasks, (t.frames.any fun f => f.runner? == some r) = true →
      own t.number = true ∨ r ∈ e.held := by
    intro t ht huses
    obtain ⟨f, hf, hr⟩ := List.any_eq_true.1 huses
    cases hown : own t.number with
    | true => exact .inl rfl
    | false => exact .inr (hd.apart.runners t ht hown f hf r (beq_iff_eq.1 hr))
  rw [Bool.eq_iff_iff, isAlive, isAlive, Bool.or_eq_true, Bool.or_eq_true, h.tasks, h.held,
    List.contains_iff_mem]
  constructor
  · refine Or.imp_right fun hany => ?_
    obtain ⟨t, ht, huses⟩ := List.any_eq_true.1 hany
    exact List.any_eq_true.2 ⟨t, (List.mem_filter.1 ht).1, huses⟩
  · rintro (hheld | hany)
    · exact .inl hheld
    · obtain ⟨t, ht, huses⟩ := List.any_eq_true.1 hany
      refine (htask t ht huses).symm.imp_right fun hown => ?_
      exact List.any_eq_true.2 ⟨t, List.mem_filter.2 ⟨ht, hown⟩, huses⟩

end

/-! ## Moves of the family -/

theorem answer (h : m.Mirrors own ids voice others e') (hr : e₀.Releases m e)
    (t : Task) (below : List Frame) (reply : Reply) :
    (e.answer t below reply).Mirrors own ids voice others e₀ (e'.answer t below reply) := by
  obtain ⟨frames, hon⟩ | ⟨ending, hover⟩ := answer_cases t below reply
  · rw [hon, hon]
    exact .on h hr
  · rw [hover, hover]
    exact .over h hr

theorem finish (h : m.Mirrors own ids voice others e') (hr : e₀.Releases m e)
    (t : Task) (below : List Frame) (o : Origin) (result : RunResult) :
    (e.finish t below o result).Mirrors own ids voice others e₀ (e'.finish t below o result) := by
  obtain ⟨frames, hon⟩ | ⟨ending, hover⟩ := finish_cases t below o result
  · rw [hon, hon]
    exact .on h hr
  · rw [hover, hover]
    exact .over h hr

theorem move_on (h : m.Mirrors own ids voice others e') (htasks : m.tasks = e₀.tasks)
    (hle : e₀.identities ≤ m.identities) (t : Task) :
    (Move.on m t).Mirrors own ids voice others e₀ (.on e' t) :=
  .on h (.still htasks hle)

section

variable (h : e.Mirrors own ids voice others e')
include h

theorem halt (ho : ∀ k, o.receiver? = some k → own k.number = true) (t : Task)
    (below : List Frame) (c : Chain) (fault : Fault) :
    (e.halt t below o c fault).Mirrors own ids voice others e (e'.halt t below o c fault) := by
  cases o with
  | call r receiver =>
    cases receiver with
    | some k =>
      simp only [Engine.halt, h.settled k (ho k rfl)]
      exact h.answer (.refl e) t below _
    | none => exact h.answer (.refl e) t below _
  | direct => exact h.answer (.refl e) t below _
  | continuation => exact (h.settle _ _).answer (.still (by rw [settle_eq]) (by rw [settle_eq])) t below _

theorem tearDown (o : Origin) (t : Task) (below : List Frame) (c : Chain) (payload : Panic) :
    (e.tearDown t below o c payload).Mirrors own ids voice others e
      (e'.tearDown t below o c payload) := by
  cases o with
  | call r receiver => exact h.answer (.refl e) t below _
  | direct => exact h.answer (.refl e) t below _
  | continuation =>
    have hr : e.Releases (e.record (.tornDown c.inst payload))
        (e.record (.tornDown c.inst payload)) := .still rfl le_rfl
    exact (h.record _).answer hr t below _

theorem isSignalled_eq (hτ : t.token.isOwn own = true) (signal : Signal) :
    e'.isSignalled t.token signal = e.isSignalled t.token signal := by
  cases signal with
  | gate name => simp only [isSignalled, h.gates]
  | cancellation => exact h.cancelled _ hτ

theorem moveInside (hd : e.IsDivided own ids) (hτ : t.token.isOwn own = true) (below : List Frame)
    (o : Origin) (c : Chain) (i : Nat) (b : Behaviour) :
    (e.moveInside t below o c i b).Mirrors own ids voice others e
      (e'.moveInside t below o c i b) := by
  cases b with
  | finish context outcome =>
    simp only [Engine.moveInside, h.now]
    split
    · exact h.move_on rfl le_rfl _
    · exact h.move_on rfl le_rfl _
  | panic context payload => exact h.tearDown o t below c payload
  | emit emission rest => exact .on (h.record _) (.still rfl le_rfl)
  | cancel rest => exact .on (h.cancel _) (.still rfl le_rfl)
  | await context signal rest =>
    simp only [Engine.moveInside, h.isSignalled_eq hτ]
    split
    · exact h.move_on rfl le_rfl _
    · exact h.move_on rfl le_rfl _
  | locate runner next =>
    simp only [Engine.moveInside, h.isAlive_eq hd]
    exact h.move_on rfl le_rfl _
  | launch context runner request next => exact h.move_on rfl le_rfl _

theorem moveActing (hτ : t.token.isOwn own = true) (below : List Frame) (o : Origin)
    (hc : ids c.inst = true) (plan : Plan)
    (hnext : ∀ next due, plan = ⟨[], .suspend next due⟩ → own e.next = true) :
    (e.moveActing t below o c plan).Mirrors own ids voice others e
      (e'.moveActing t below o c plan) := by
  obtain ⟨effects, turn⟩ := plan
  cases effects with
  | cons effect es =>
    cases effect with
    | save next =>
      obtain ⟨hresult, hsaved⟩ := h.save c.inst next
      simp only [Engine.moveActing, perform, hresult]
      cases (e.save c.inst next).2 with
      | ok _ => exact .on hsaved (.still rfl le_rfl)
      | error error => exact .on hsaved (.still rfl le_rfl)
    | publish news =>
      obtain ⟨hresult, hpublished⟩ := h.publish (c.notice news)
      simp only [Engine.moveActing, perform, hresult]
      cases (e.publish (c.notice news)).2 with
      | ok _ => exact hpublished.move_on (tasks_publish e _) (identities_publish e _).ge _
      | error error => exact hpublished.move_on (tasks_publish e _) (identities_publish e _).ge _
    | settle s => exact (h.settle _ _).move_on (by rw [settle_eq]) (by rw [settle_eq]) _
  | nil =>
    cases turn with
    | arrive index => exact h.move_on rfl le_rfl _
    | stop result => exact h.finish (.refl e) t below o result
    | suspend next due =>
      obtain ⟨hresult, hlaid⟩ := h.lay hc hτ (hnext next due rfl) next due
      have hreleases := Releases.due (e := e) c t.token next due
      simp only [Engine.moveActing, hlaid.suspend_eq, suspend_eq_lay e]
      cases he : e.lay c t.token next due with
      | mk m result =>
        cases he' : e'.lay c t.token next due with
        | mk m' result' =>
          rw [he, he'] at hresult hlaid
          rw [he] at hreleases
          obtain rfl : result' = result := hresult
          cases result' with
          | ok _ => exact hlaid.finish hreleases t below o _
          | error fault =>
            have htasks := e.tasks_lay c t.token next due
            have hidentities := e.identities_lay c t.token next due
            rw [he] at htasks hidentities
            exact hlaid.move_on htasks hidentities.ge _

theorem moveDriving (hd : e.IsDivided own ids) (hτ : t.token.isOwn own = true)
    (below : List Frame) (ho : ∀ k, o.receiver? = some k → own k.number = true)
    (hc : ids c.inst = true) (stage : Stage)
    (hnext : ∀ next due, stage = .acting ⟨[], .suspend next due⟩ → own e.next = true) :
    (e.moveDriving t below o c stage).Mirrors own ids voice others e
      (e'.moveDriving t below o c stage) := by
  cases stage with
  | entering index =>
    simp only [Engine.moveDriving, h.cancelled _ hτ]
    split
    · exact h.move_on rfl le_rfl _
    · split
      · exact h.move_on rfl le_rfl _
      · exact .on (h.record _) (.still rfl le_rfl)
  | inside index b => exact h.moveInside hd hτ below o c index b
  | calling index next => exact .blocked
  | acting plan =>
    refine h.moveActing hτ below o hc plan fun next due hplan => hnext next due ?_
    rw [hplan]
  | halting fault => exact h.halt ho t below c fault

/-- The same identity is found for a request, if the one that is made up is the next of the
family. -/
theorem identify (q : Request)
    (hvoice : q.inst = none → voice e'.identities = e.identity e.identities) :
    (e'.identify q).1 = (e.identify q).1 ∧
      (e.identify q).2.Mirrors own ids voice others (e'.identify q).2 := by
  unfold Engine.identify
  cases hq : q.inst with
  | some x => exact ⟨rfl, h⟩
  | none =>
    refine ⟨?_, { h with identities := ?_ }⟩
    · exact (congrFun h.identity _).trans (hvoice hq)
    · show e.identities + 1 = e'.identities + 1 + others
      rw [h.identities]
      omega

theorem moveOpening (below : List Frame) (r : RunnerId) (q : Request) (resuming : Bool)
    (hfound : ∀ id d, e.runners.get? r = some id → id.registry.find? q.workflow = some d →
      ids (e.identify q).1 = true ∧
        (q.inst = none → voice e'.identities = e.identity e.identities)) :
    (e.moveOpening t below r q resuming).Mirrors own ids voice others e
      (e'.moveOpening t below r q resuming) := by
  unfold Engine.moveOpening
  rw [h.runners]
  cases hr : e.runners.get? r with
  | none => exact h.answer (.refl e) t below _
  | some id =>
    dsimp only
    cases hdefinition : id.registry.find? q.workflow with
    | none => exact h.answer (.refl e) t below _
    | some d =>
      dsimp only
      obtain ⟨hids, hvoice⟩ := hfound id d hr hdefinition
      obtain ⟨hinst, hidentified⟩ := h.identify q hvoice
      cases he : e.identify q with
      | mk x m =>
        cases he' : e'.identify q with
        | mk x' m' =>
          rw [he, he'] at hinst hidentified
          rw [he] at hids
          obtain rfl : x' = x := hinst
          obtain ⟨hresult, hloaded⟩ := hidentified.load hids
          cases hl : m.load x' with
          | mk m₁ found =>
            cases hl' : m'.load x' with
            | mk m₁' found' =>
              rw [hl, hl'] at hresult hloaded
              obtain rfl : found' = found := hresult
              have htasks : m₁.tasks = e.tasks := by
                have hidentified : (e.identify q).2.tasks = e.tasks := by rw [e.identify_eq q]
                rw [he] at hidentified
                have hsame : m₁ = (m.load x').1 := by rw [hl]
                exact hsame ▸ hidentified
              have hle : e.identities ≤ m₁.identities := by
                have hidentified := e.identities_le_identify q
                rw [he] at hidentified
                have hsame : m₁ = (m.load x').1 := by rw [hl]
                exact hsame ▸ hidentified
              dsimp only
              split
              · exact hloaded.answer (.still htasks hle) t below _
              · exact hloaded.answer (.still htasks hle) t below _
              · obtain ⟨journal, hjournal⟩ := foldl_record m₁ (seed r id d x' q).emissions
                obtain ⟨journal', hjournal'⟩ := foldl_record m₁' (seed r id d x' q).emissions
                have hseeded : Mirrors own ids voice others { m₁ with journal }
                    { m₁' with journal := journal' } := { hloaded with }
                rw [hjournal, hjournal']
                split
                · exact hseeded.answer (.still htasks hle) t below _
                · have hnext : m₁'.next = m₁.next := hloaded.next
                  simp only [fresh, hnext]
                  exact (hseeded.draw (m₁.next + 1)).move_on htasks hle _

end

end Mirrors

/-! ## What is drawn -/

theorem next_lay (e : Engine) (c : Chain) (τ : Token) (next : Nat) (due : Instant) :
    (e.lay c τ next due).1.next = e.next + 1 ∧
      (e.lay c τ next due).1.cancelled = e.cancelled := by
  rw [lay_eq]
  exact ⟨rfl, rfl⟩

theorem next_lt_suspend (e : Engine) (c : Chain) (τ : Token) (next : Nat) (due : Instant) :
    e.next < (e.suspend c τ next due).1.next := by
  obtain ⟨hlay, -⟩ := e.next_lay c τ next due
  rw [suspend_eq_lay]
  split
  · rename_i m hm
    rw [hm] at hlay
    obtain hsame | ⟨x, armed, -, -, hrelease⟩ := releaseDue_cases m
    · rw [hsame, hlay]
      exact Nat.lt_succ_self _
    · have hnext : m.releaseDue.next = m.next + 1 := by
        rw [hrelease, resumeContinuation, untrack_eq]
        rfl
      have hlay : m.next = e.next + 1 := hlay
      show e.next < m.releaseDue.next
      omega
  · rename_i m fault hm
    rw [hm] at hlay
    exact hlay ▸ Nat.lt_succ_self _

/-- A chain that is to be laid to rest draws a number. -/
theorem next_lt_moveActing (e : Engine) (t : Task) (below : List Frame) (o : Origin) (c : Chain)
    (next : Nat) (due : Instant) :
    e.next < ((e.moveActing t below o c ⟨[], .suspend next due⟩).engine e).next := by
  have hlt := e.next_lt_suspend c t.token next due
  simp only [moveActing]
  cases hs : e.suspend c t.token next due with
  | mk m result =>
    rw [hs] at hlt
    cases result with
    | ok _ => exact (engine_finish e m t below o _).symm ▸ hlt
    | error fault => exact hlt

/-- An instance without an identity of its own gets one that is made up. -/
theorem identities_lt_moveOpening {below : List Frame} {r : RunnerId} {q : Request}
    {resuming : Bool} {id : Runner} {d : Definition} (hr : e.runners.get? r = some id)
    (hd : id.registry.find? q.workflow = some d) (hq : q.inst = none) :
    e.identities < ((e.moveOpening t below r q resuming).engine e).identities := by
  have hlt := identities_lt_identify hq e
  have hopens := e.opens_moveOpening t below r q resuming
  generalize e.moveOpening t below r q resuming = m at hopens ⊢
  cases hopens with
  | unknown h =>
    rw [h id hr] at hd
    cases hd
  | answers journal reply =>
    rw [engine_answer]
    exact hlt
  | starts journal => exact hlt

namespace Mirrors

/-- Whether a task of the family can go on depends on the family only. -/
theorem isReady_eq (h : e.Mirrors own ids voice others e') (hd : e.IsDivided own ids)
    (ht : t ∈ e.tasks) (hown : own t.number = true) : e'.isReady t = e.isReady t := by
  have hkin := hd.kin _ (task_mem_members ht)
  unfold isReady
  split
  · exact h.isSignalled_eq (hkin.token hown) _
  · rename_i r k below hf
    have hk : own k.number = true := by
      refine (hkin.completions k (List.mem_flatMap.2 ⟨_, hf ▸ List.mem_cons_self, ?_⟩)).trans hown
      exact List.mem_append_right _ List.mem_cons_self
    rw [Table.contains, Table.contains, h.settled k hk, h.isOwed_eq hd hk]
  · rename_i k below hf
    exact ((hd.sound.tasks t ht).frames (.listening k) (hf ▸ List.mem_cons_self)).elim
  · rfl

section

variable (h : e.Mirrors own ids voice others e') (hd : e.IsDivided own ids) (ht : t ∈ e.tasks)
  (hown : own t.number = true)
  (hnext : e.next < ((e.move t).engine e).next → own e.next = true)
  (hvoice : e.identities < ((e.move t).engine e).identities →
    ids (e.identity e.identities) = true ∧ voice e'.identities = e.identity e.identities)
include h hd ht hown hnext hvoice

/-- A task of the family that is not parked does the same in the mirror. -/
theorem moveTop (hp : t.parked = false) :
    (e.moveTop t).Mirrors own ids voice others e (e'.moveTop t) := by
  have hτ : t.token.isOwn own = true := (hd.kin _ (task_mem_members ht)).token hown
  have hcompletion : ∀ f ∈ t.frames, ∀ k ∈ f.completions, own k.number = true := fun f hf k hk =>
    ((hd.kin _ (task_mem_members ht)).completions k (List.mem_flatMap.2 ⟨f, hf, hk⟩)).trans hown
  have hmove : e.move t = e.moveTop t := Engine.move_of_unparked hp
  rw [hmove] at hnext hvoice
  unfold Engine.moveTop at hnext hvoice ⊢
  cases hf : t.frames with
  | nil => exact .over h (.refl e)
  | cons f below =>
    have hmem : f ∈ t.frames := hf ▸ List.mem_cons_self
    have hkeeps := fun k hk => hcompletion f hmem k hk
    rw [hf] at hnext hvoice
    cases f with
    | opening r q resuming =>
      refine h.moveOpening below r q resuming fun id d hr hdefinition => ?_
      have hmade : q.inst = none →
          ids (e.identity e.identities) = true ∧ voice e'.identities = e.identity e.identities :=
        fun hq => hvoice (identities_lt_moveOpening hr hdefinition hq)
      refine ⟨?_, fun hq => (hmade hq).2⟩
      unfold Engine.identify
      cases hq : q.inst with
      | some x => exact hd.apart.requests t ht hown _ hmem x hq
      | none => exact (hmade hq).1
    | driving o c stage =>
      have ho : ∀ k, o.receiver? = some k → own k.number = true := fun k hk =>
        hkeeps k (Frame.mem_completions_driving.2 (.inr hk))
      have hc : ids c.inst = true := (hd.apart.chains t ht _ hmem c rfl).trans hown
      refine h.moveDriving hd hτ below ho hc stage ?_
      rintro next due rfl
      exact hnext (e.next_lt_moveActing t below o c next due)
    | receiving r k =>
      have hk : own k.number = true := hkeeps k (List.mem_append_right _ List.mem_cons_self)
      simp only [h.settled k hk, h.isOwed_eq hd hk]
      split
      · exact h.answer (.refl e) t below _
      · split
        · exact h.move_on rfl le_rfl _
        · exact h.answer (.refl e) t below _
    | listening k => exact ((hd.sound.tasks t ht).frames _ hmem).elim

/-- **A task of the family does the same in the mirror.** -/
theorem move : (e.move t).Mirrors own ids voice others e (e'.move t) := by
  cases hp : t.parked with
  | false =>
    have htop := h.moveTop hd ht hown hnext hvoice hp
    rw [Engine.move, Engine.move, hp]
    exact htop
  | true =>
    have hτ : t.token.isOwn own = true := (hd.kin _ (task_mem_members ht)).token hown
    rw [Engine.move, Engine.move, hp, if_pos rfl, if_pos rfl, h.cancelled _ hτ,
      h.isReady_eq hd ht hown]
    split
    · exact h.move_on rfl le_rfl _
    · split
      · exact h.move_on rfl le_rfl _
      · exact .blocked

end

/-! ## Deeds of the family -/

theorem deed?_eq (h : e.Mirrors own ids voice others e') {τ : Token} (hτ : τ.isOwn own = true)
    (hc : ids c.inst = true) (stage : Stage)
    (hnext : ∀ next due, stage = .acting ⟨[], .suspend next due⟩ → own e.next = true) :
    e'.deed? τ c stage = e.deed? τ c stage := by
  unfold deed?
  split
  · rw [h.cancelled τ hτ]
  · rfl
  · rfl
  · rfl
  · rfl
  · rw [(h.save _ _).1]
  · rw [(h.publish _).1]
  · rfl
  · rfl
  · rename_i next due
    obtain ⟨hresult, hlaid⟩ := h.lay hc hτ (hnext next due rfl) next due
    have hsuspend : (e.suspend c τ next due).2 = (e.lay c τ next due).2 := by
      rw [suspend_eq_lay]
      split <;> rename_i heq <;> rw [heq]
    rw [hlaid.suspend_eq, hresult, hsuspend]
  · rfl
  · rfl

end Mirrors

end Engine

/-- Which chain is started by a move is told by its task. -/
theorem Move.started_on (e e' : Engine) (t : Task) : (on e' t).started = (on e t).started := by
  obtain ⟨number, token, parked, frames⟩ := t
  cases frames with
  | nil => rfl
  | cons f below =>
    cases f with
    | driving o c stage => cases stage <;> rfl
    | _ => rfl

theorem Move.Mirrors.started_eq {own : Nat → Bool} {ids : String → Bool} {voice : Nat → String}
    {others : Nat} {e : Engine} {M M' : Move} (h : M.Mirrors own ids voice others e M') :
    M'.started = M.started := by
  cases h with
  | blocked => rfl
  | on _ _ => exact started_on _ _ _
  | «over» _ _ => rfl

namespace Engine

variable {own : Nat → Bool} {ids : String → Bool} {voice : Nat → String} {others : Nat}
  {e e' : Engine} {t : Task}

/-- **What is done for a chain of the family is done in the mirror.** -/
theorem Mirrors.deedsOf_eq (h : e.Mirrors own ids voice others e') (hd : e.IsDivided own ids)
    (ht : t ∈ e.tasks) (hown : own t.number = true)
    (hnext : e.next < ((e.move t).engine e).next → own e.next = true)
    (hvoice : e.identities < ((e.move t).engine e).identities →
      ids (e.identity e.identities) = true ∧ voice e'.identities = e.identity e.identities) :
    e'.deedsOf t = e.deedsOf t := by
  have hτ : t.token.isOwn own = true := (hd.kin _ (task_mem_members ht)).token hown
  unfold deedsOf
  cases hp : t.parked with
  | true =>
    rw [h.cancelled _ hτ]
    rfl
  | false =>
    simp only [Bool.false_eq_true, if_false]
    cases hf : t.frames with
    | nil => rfl
    | cons f below =>
      cases f with
      | opening r q resuming =>
        exact (h.moveTop hd ht hown hnext hvoice hp).started_eq
      | driving o c stage =>
        have hc : ids c.inst = true :=
          (hd.apart.chains t ht _ (hf ▸ List.mem_cons_self) c rfl).trans hown
        have hdeed := h.deed?_eq hτ hc stage ?_
        · simp only [hdeed]
        · rintro next due rfl
          have hmove : e.move t = e.moveActing t below o c ⟨[], .suspend next due⟩ := by
            simp [Engine.move_driving hp hf, Engine.moveDriving]
          exact hnext (hmove ▸ e.next_lt_moveActing t below o c next due)
      | receiving r k => rfl
      | listening k => rfl

/-! ## Moves of others -/

/-- What others do, before what is due goes off, leaves the mirror as it is, but for a token of the
family that they cancel and a number that they draw. -/
def PassesBy (own : Nat → Bool) (ids : String → Bool) (voice : Nat → String) (e e' e₁ : Engine) :
    Prop :=
  ∃ (m : Engine) (others : Nat) (tokens : List Token),
    m.Mirrors own ids voice others
      { e' with cancelled := tokens.filter (Token.isOwn own) ++ e'.cancelled, next := m.next } ∧
    m.cancelled = tokens ++ e.cancelled ∧ (m.next = e.next ∨ m.next = e.next + 1) ∧
    e.Releases m e₁

namespace PassesBy

variable {m : Engine} {below : List Frame} {o : Origin} {c : Chain}

theorem quiet (h : m.Mirrors own ids voice others e') (htasks : m.tasks = e.tasks)
    (hle : e.identities ≤ m.identities) (hnext : m.next = e.next) (hcancelled : m.cancelled = e.cancelled) :
    PassesBy own ids voice e e' m :=
  ⟨m, others, [], { h with next := rfl }, hcancelled, .inl hnext, .still htasks hle⟩

variable (h : e.Mirrors own ids voice others e')
include h

theorem refl : PassesBy own ids voice e e' e := quiet h rfl le_rfl rfl rfl

theorem settle (k : Option CompletionId) (hk : ∀ c ∈ k, own c.number = false) (s : Settlement) :
    PassesBy own ids voice e e' (e.settle k s) :=
  quiet (h.settle_left hk s) (by rw [settle_eq]) (by rw [settle_eq]) (by rw [settle_eq])
    (by rw [settle_eq])

theorem publish (notice : Notice) : PassesBy own ids voice e e' (e.publish notice).1 := by
  have hpublished := h.publish_left notice
  rw [publish_eq] at hpublished ⊢
  exact quiet hpublished rfl le_rfl rfl rfl

theorem cancel (τ : Token) : PassesBy own ids voice e e' (e.cancel τ) := by
  refine ⟨e.cancel τ, others, [τ], ?_, rfl, .inl rfl, .still rfl le_rfl⟩
  cases hτ : τ.isOwn own with
  | true =>
    rw [List.filter_singleton, hτ]
    exact { h.cancel τ with next := rfl }
  | false =>
    rw [List.filter_singleton, hτ]
    exact { h.cancel_left hτ with next := rfl }

/-- A chain of others is laid to rest. -/
theorem suspend (hc : ids c.inst = false) (hnext : own e.next = false) (τ : Token) (next : Nat)
    (due : Instant) : PassesBy own ids voice e e' (e.suspend c τ next due).1 := by
  have hlaid := h.lay_left hc hnext τ next due
  have hreleases := Releases.due (e := e) c τ next due
  obtain ⟨hdrawn, hcancelled⟩ := e.next_lay c τ next due
  rw [suspend_eq_lay e]
  cases he : e.lay c τ next due with
  | mk m result =>
    rw [he] at hlaid hreleases hdrawn hcancelled
    have hdrawn : m.next = e.next + 1 := hdrawn
    have hm : m.Mirrors own ids voice others { e' with next := m.next } :=
      { hlaid with next := rfl }
    cases result with
    | ok _ => exact ⟨m, others, [], hm, hcancelled, .inr hdrawn, hreleases⟩
    | error fault =>
      have htasks : m.tasks = e.tasks := by rw [← e.tasks_lay c τ next due, he]
      have hle : e.identities ≤ m.identities := by rw [← e.identities_lay c τ next due, he]
      exact ⟨m, others, [], hm, hcancelled, .inr hdrawn, .still htasks hle⟩

/-- An instance of others is looked up, for which an identity may be made up. -/
theorem consulted (q : Request) (journal : List Occurrence) :
    ∃ others', (e.consulted q journal).Mirrors own ids voice others' e' := by
  obtain ⟨more, hmore⟩ := Nat.exists_eq_add_of_le (e.identities_le_identify q)
  have hidentities : (e.identify q).2.identities = e'.identities + (others + more) := by
    rw [hmore, h.identities, Nat.add_assoc]
  exact ⟨others + more, { h.load_left (e.identify q).1 with identities := hidentities }⟩

end PassesBy

/-- **What a task of others does passes the mirror by.** -/
theorem Mirrors.passesBy (h : e.Mirrors own ids voice others e') (hd : e.IsDivided own ids)
    (ht : t ∈ e.tasks) (hown : own t.number = false)
    (hnext : e.next < ((e.move t).engine e).next → own e.next = false) :
    PassesBy own ids voice e e' ((e.move t).engine e) := by
  -- The chain of the task is one of others, and so is its completion.
  have apart : ∀ {o : Origin} {c : Chain} {stage : Stage} {below : List Frame},
      t.frames = .driving o c stage :: below →
        ids c.inst = false ∧ ∀ k ∈ c.completion, own k.number = false := by
    intro o c stage below hf
    have hmem : .driving o c stage ∈ t.frames := hf ▸ List.mem_cons_self
    refine ⟨(hd.apart.chains t ht _ hmem c rfl).trans hown, fun k hk => ?_⟩
    have hkin := (hd.kin _ (task_mem_members ht)).completions
    refine (hkin k (List.mem_flatMap.2 ⟨_, hmem, ?_⟩)).trans hown
    exact Frame.mem_completions_driving.2 (.inl hk)
  have himprints := e.imprints_move t
  generalize (e.move t).engine e = m at himprints hnext ⊢
  cases himprints with
  | nothing => exact .refl h
  | writes x => exact .quiet (h.record_left x) rfl le_rfl rfl rfl
  | cancels => exact .cancel h t.token
  | publishes notice => exact .publish h notice
  | settles hf s => exact .settle h _ (apart hf).2 s
  | saves _ hf => exact .quiet (h.save_left (apart hf).1 _) rfl le_rfl rfl rfl
  | rests _ hf => exact .suspend h (apart hf).1 (hnext (e.next_lt_suspend ..)) _ _ _
  | consults q journal =>
    obtain ⟨others', h'⟩ := PassesBy.consulted h q journal
    exact .quiet h' rfl (e.identities_le_identify q) rfl rfl
  | starts q journal =>
    obtain ⟨others', h'⟩ := PassesBy.consulted h q journal
    exact ⟨{ e.consulted q journal with next := e.next + 1 }, others', [],
      { h'.draw (e.next + 1) with next := rfl }, rfl, .inr rfl,
      .still rfl (e.identities_le_identify q)⟩

end Engine

end DurableFlow
