import DurableFlow.Proofs.Families.RecalledDeeds
import DurableFlow.Proofs.Settlement.WaitingCallers

/-!
# How ends become known

How the end of a chain becomes known, if nobody interferes, no step panics and the bus accepts
everything. A chain that stops has announced how. A chain that is halted by a fault reports it: its
call returns the error, or the call that waits for it is told. There is one exception, a chain that
goes on after a delay and that nobody waits for: its fault is reported to nobody
(`Engine.IsNew.end_known`, `JumpAfterDelay.unreported`).
-/

namespace DurableFlow

/-- Whether a chain has come to its end by this deed. -/
def Deed.isLast : Deed → Bool
  | .stopped _ | .halted _ | .panicked | .dropped | .lost => true
  | _ => false

/-- Whether the bus has refused a notice. -/
def Deed.isRefusal : Deed → Bool
  | .refused _ => true
  | _ => false

/-- Whether a chain is taken away from outside: its task is cut off, or its continuation dropped. -/
def Act.isRemoval : Act → Bool
  | .cut _ | .drop _ => true
  | _ => false

/-! ## Settlements and refusals -/

/-- Complete rounds settle nothing. -/
theorem Trail.unsettled {d : Definition} {p j : Nat} {T : List Deed} (h : Trail d p T j) :
    ∀ v, .settled v ∉ T := by
  induction h with
  | start => simp
  | @round T i j o now es turn context c h hr hplan hnext ih =>
    intro v hv
    rcases List.mem_append.1 hv with hv | hv
    · exact ih v hv
    have hturn : .settled v ∉ turn.deeds := by cases turn <;> simp [Turn.deeds]
    have hmem : .settled v ∈ es.map (Effect.deed c) := by simpa [hturn] using hv
    obtain ⟨effect, heffect, hdeed⟩ := List.mem_map.1 hmem
    cases effect with
    | settle s =>
      obtain ⟨done, es', rfl⟩ := List.append_of_mem heffect
      obtain ⟨⟨result, rfl⟩, -⟩ := Plan.settle_cases hplan
      cases hnext
    | _ => cases hdeed

/-- A chain that is laid to rest has settled nothing in its round. -/
theorem Round.unsettled_of_suspend {d : Definition} {i p next : Nat} {r : List Deed} {c : Chain}
    {due : Instant} (h : Round d i r c (.acting ⟨[], .suspend next due⟩) p) :
    ∀ v, .settled v ∉ r := by
  cases h with
  | acting hr hplan =>
    rw [List.append_nil] at hplan
    obtain ⟨duration, rfl, rfl, rfl⟩ := Plan.suspend_cases hplan
    simp [Effect.deed]
  | ending hi hplan => cases (Plan.atEnd_next hplan)

/-- A chain that has settled is halted only if the bus refuses to publish how it ended. -/
theorem Recalls.refused_of_settled {d : Definition} {p₀ p : Nat} {T : List Deed} {c : Chain}
    {fault : Fault} {v : Settlement} (h : Recalls d p₀ T c (.halting fault) p)
    (hv : .settled v ∈ T) : ∃ n, .refused n ∈ T := by
  obtain ⟨T₀, i, r, rfl, htrail, hround⟩ := h
  have hv : .settled v ∈ r := by
    rcases List.mem_append.1 hv with hv | hv
    · exact absurd hv (htrail.unsettled v)
    · exact hv
  cases hround with
  | withdrawn => cases hv
  | aborted hi => simp at hv
  | misjumped hr hplan => simp at hv
  | unsaved h =>
    obtain ⟨-, o, rfl, -⟩ := h.saving
    simp at hv
  | refused h =>
    exact ⟨_, List.mem_append_right _ (List.mem_append_right _ (List.mem_singleton_self _))⟩
  | unscheduled h =>
    rcases List.mem_append.1 hv with hv | hv
    · exact absurd hv (h.unsettled_of_suspend v)
    · simp at hv

namespace Engine

/-- A history in which nothing but the chains themselves decides how they end: nobody takes a chain
away, no token is cancelled, the bus accepts everything, and no step panics. -/
structure IsCalm (e : Engine) (as : List Act) : Prop where
  kept : ∀ a ∈ as, a.isRemoval = false
  uncancelled : (e.after as).cancelled = []
  accepted : ∀ d ∈ e.chronicle as, d.2.isRefusal = false
  contained : ∀ d ∈ e.chronicle as, d.2.isPanic = false

/-- The end of a chain, to which it comes by a move of a task, is known. -/
inductive IsKnown (e : Engine) (as : List Act) (t : Task) (c : Chain) : Deed → Prop
  /-- The chain has announced how it ended, and the bus accepted that: it stands in the journal. -/
  | announced {result p₀ φ p} {news : News} {L : List (Chain × Deed)}
      (hL : L.Sublist (e.chronicle as))
      (hsame : ∀ x ∈ L, x.1.GoesOnAs c)
      (hrecalls : Recalls c.definition p₀ (L.map Prod.snd) c φ p)
      (hnews : .published (c.notice news) ∈ L.map Prod.snd)
      (hjournal : c.notice news ∈ (e.after as).publications) (htopic : news.topic ≠ .delayed)
      (hstatus : news.topic.status = result.status) : IsKnown e as t c (.stopped result)
  /-- The call that the chain belongs to returns the fault. -/
  | returned {fault o below}
      (ht : t.frames = .driving o c (.halting fault) :: below) (ho : o ≠ .continuation)
      (h : ((e.after as).move t).Returns (e.after as) t (.error (.fault fault)) below) :
      IsKnown e as t c (.halted fault)
  /-- The call that waits for the chain is told the fault by the next move of its task. -/
  | told {fault k u} (hk : c.completion = some k)
      (hu : u ∈ (e.after (as ++ [.advance t.number])).tasks)
      (h : (e.after (as ++ [.advance t.number])).IsTelling u k (.error (.fault fault))) :
      IsKnown e as t c (.halted fault)

variable {e : Engine} {as before : List Act} {a : Act} {c : Chain} {d : Deed}

namespace IsCalm

theorem uncancelled_before (h : e.IsCalm (before ++ as)) (hsound : e.Sound .any) :
    (e.after before).cancelled = [] := by
  have hsuffix := (hsound.after_any before).cancelled_suffix_after as
  rw [← after_append, h.uncancelled] at hsuffix
  exact List.suffix_nil.1 hsuffix

theorem left (h : e.IsCalm (before ++ as)) (hsound : e.Sound .any) : e.IsCalm before where
  kept a ha := h.kept a (List.mem_append_left _ ha)
  uncancelled := h.uncancelled_before hsound
  accepted d hd := h.accepted d (chronicle_append e before as ▸ List.mem_append_left _ hd)
  contained d hd := h.contained d (chronicle_append e before as ▸ List.mem_append_left _ hd)

end IsCalm

theorem isCancelled_of_nil {e : Engine} (h : e.cancelled = []) (token : Token) :
    e.isCancelled token = false := by
  rw [isCancelled, h]
  rfl

/-- Nobody who waits is cut off. -/
theorem replies_isSome (hcancelled : e.cancelled = []) (ha : a.isRemoval = false) :
    ∀ k, (k, none) ∉ e.replies a := by
  intro k hk
  cases a with
  | advance n =>
    simp only [replies] at hk
    split at hk
    · rename_i t ht
      unfold told at hk
      rw [isCancelled_of_nil hcancelled, Bool.false_and] at hk
      split at hk
      · cases hk
      · split at hk
        · simp at hk
        · simp at hk
        · split at hk
          · simp at hk
          · split at hk <;> simp at hk
        · cases hk
    · cases hk
  | cut n => cases ha
  | _ => cases hk

theorem IsCalm.answers_isSome (h : e.IsCalm as) (hsound : e.Sound .any) (k : CompletionId) :
    none ∉ e.answers k as := by
  induction as using List.reverseRecOn with
  | nil => simp [answers, tellings, Reply.to]
  | append_singleton as a ih =>
    rw [answers, tellings_concat, Reply.to_append]
    intro hnone
    rcases List.mem_append.1 hnone with hnone | hnone
    · exact ih (h.left hsound) hnone
    · obtain ⟨⟨k', reply⟩, hmem, rfl⟩ := List.mem_map.1 hnone
      have hreplies := replies_isSome (h.uncancelled_before hsound)
        (h.kept a (List.mem_append_right _ List.mem_cons_self))
      exact hreplies k' (List.mem_of_mem_filter hmem)

/-- The last deed of a chain is done when its task is taken on, or gives it up. -/
theorem deedsOf_isLast {t : Task} (hd : (c, d) ∈ e.deedsOf t) (hlast : d.isLast = true) :
    (t.parked = true ∧ e.isCancelled t.token = true ∧ (abandon t).isSome = true ∧ d = .lost ∧
      ∃ o stage, .driving o c stage ∈ t.frames.dropLast) ∨
    t.parked = false ∧ ∃ o below,
      (∃ result, t.frames = .driving o c (.acting ⟨[], .stop result⟩) :: below ∧
        d = .stopped result) ∨
      (∃ fault, t.frames = .driving o c (.halting fault) :: below ∧ d = .halted fault) ∨
      ∃ i context payload, t.frames = .driving o c (.inside i (.panic context payload)) :: below ∧
        d = .panicked := by
  unfold deedsOf at hd
  cases hp : t.parked with
  | true =>
    rw [hp, if_pos rfl] at hd
    split at hd
    · rename_i hgive
      obtain ⟨c', hc', heq⟩ := List.mem_map.1 hd
      cases heq
      obtain ⟨f, hf, hchain⟩ := List.mem_filterMap.1 hc'
      cases f with
      | driving o c' stage =>
        cases hchain
        obtain ⟨hc, habandon⟩ := Bool.and_eq_true_iff.1 hgive
        exact .inl ⟨rfl, hc, habandon, rfl, o, stage, hf⟩
      | _ => cases hchain
    · cases hd
  | false =>
    simp only [hp, Bool.false_eq_true, if_false] at hd
    refine .inr ⟨rfl, ?_⟩
    split at hd
    · unfold Move.started at hd
      split at hd
      · cases List.mem_singleton.1 hd
        cases hlast
      · cases hd
    · rename_i o c' stage below hframes
      obtain ⟨d', hd', heq⟩ := Option.map_eq_some_iff.1 (Option.mem_toList.1 hd)
      cases heq
      refine ⟨o, below, ?_⟩
      rw [hframes]
      unfold deed? at hd'
      split at hd'
      · split at hd'
        · cases hd'; cases hlast
        · split at hd'
          · cases hd'
          · cases hd'; cases hlast
      · cases hd'; cases hlast
      · cases hd'; exact .inr (.inr ⟨_, _, _, rfl, rfl⟩)
      · cases hd'
      · cases hd'
      · split at hd' <;> (cases hd'; cases hlast)
      · split at hd' <;> (cases hd'; cases hlast)
      · cases hd'; cases hlast
      · cases hd'
      · split at hd' <;> (cases hd'; cases hlast)
      · cases hd'; exact .inl ⟨_, rfl, rfl⟩
      · cases hd'; exact .inr (.inl ⟨_, rfl, rfl⟩)
    · cases hd

/-- The last deed of a chain that nobody takes away is done when its task is taken on. -/
theorem deedsOf_last {t : Task} (hcancelled : e.cancelled = []) (hd : (c, d) ∈ e.deedsOf t)
    (hlast : d.isLast = true) : t.parked = false ∧ ∃ o below,
      (∃ result, t.frames = .driving o c (.acting ⟨[], .stop result⟩) :: below ∧
        d = .stopped result) ∨
      (∃ fault, t.frames = .driving o c (.halting fault) :: below ∧ d = .halted fault) ∨
      d = .panicked := by
  obtain ⟨-, hc, -⟩ | ⟨hp, o, below, hstop | hhalt | ⟨_, _, _, -, hpanic⟩⟩ :=
    deedsOf_isLast hd hlast
  · cases hc.symm.trans (isCancelled_of_nil hcancelled t.token)
  · exact ⟨hp, o, below, .inl hstop⟩
  · exact ⟨hp, o, below, .inr (.inl hhalt)⟩
  · exact ⟨hp, o, below, .inr (.inr hpanic)⟩

theorem driving_mem_strands {t : Task} {o : Origin} {stage : Stage} {below : List Frame}
    (ht : t.frames = .driving o c stage :: below) :
    ⟨o, c, stage.phase⟩ ∈ (Member.task t).strands := by
  show _ ∈ t.frames.filterMap Frame.strand?
  rw [ht]
  exact List.mem_cons_self

/-- The chain on top of a task remembers what it has done in the course of the history. -/
theorem IsNew.remembers_top (h : e.IsNew) {t : Task} (ht : t ∈ (e.after as).tasks) {o : Origin}
    {stage : Stage} {below : List Frame} (hframes : t.frames = .driving o c stage :: below) :
    Strand.Remembers (e.chronicle as) ⟨o, c, stage.phase⟩ := by
  rw [← doings_all]
  exact h.remembers (isHereditary_all e as) _ (task_mem_members ht) rfl _
    (driving_mem_strands hframes)

theorem strand_mem_account {t : Task} (ht : t ∈ e.tasks) {s : Strand}
    (hs : s ∈ (Member.task t).strands) : s ∈ e.account.strands := by
  obtain ⟨f, hf, hstrand⟩ := List.mem_filterMap.1 hs
  have hframes : f ∈ e.frames := List.mem_flatMap.2 ⟨t, ht, hf⟩
  exact Multiset.mem_add.2 (.inl (List.mem_filterMap.2 ⟨f, hframes, hstrand⟩))

theorem mem_account_of_members {m : Member} (hm : m ∈ e.members) {s : Strand}
    (hs : s ∈ m.strands) : s ∈ e.account.strands := by
  cases m with
  | task t => exact strand_mem_account (mem_tasks_of_members hm) hs
  | timer x =>
    rw [List.mem_singleton.1 hs]
    exact Multiset.mem_add.2 (.inr (List.mem_map_of_mem (mem_armed_of_members hm)))

/-- As long as no step has panicked, a strand that owes a completion is the one that its promise is
about. -/
theorem IsNew.owes (h : e.IsNew) (hcontained : ∀ d ∈ e.chronicle as, d.2.isPanic = false)
    {s : Strand}
    (hs : s ∈ (e.after as).account.strands) {k : CompletionId}
    (hk : s.chain.completion = some k) :
    (e.after as).account.Owes k (e.tale k as) (e.answers k as) s := by
  obtain ⟨rest, hrest⟩ := Multiset.exists_cons_of_mem hs
  obtain hpanicked | ⟨-, howes | ⟨hcloses, -⟩⟩ := (h.promise k as).of_party hrest (.inl hk)
  · obtain ⟨c, hc, -⟩ := Deed.mem_of.1 hpanicked
    cases hcontained _ hc
  · exact howes
  · exact absurd hk hcloses.completion_ne

/-- Who waits for a chain that goes on after a delay is told the fault by which it is halted. -/
theorem Sound.isTelling_of_halted {S : Standard} (h : e.Sound S) {t : Task}
    (ht : e.task? t.number = some t) (hp : t.parked = false) {fault : Fault} {below : List Frame}
    (hframes : t.frames = .driving .continuation c (.halting fault) :: below) {k : CompletionId}
    (hk : c.completion = some k) (hwaiting : 0 < e.account.waiting.count k) :
    ∃ u ∈ (e.act (.advance t.number)).tasks,
      (e.act (.advance t.number)).IsTelling u k (.error (.fault fault)) := by
  obtain ⟨u, hu, r, rest, hreceiving⟩ := h.exists_receiving hwaiting
  obtain ⟨-, l, l', htasks, hne⟩ := h.exists_split ht
  -- The call that waits is the one of another task.
  have hother : u ∈ l ++ l' := by
    rw [htasks, List.mem_append, List.mem_cons] at hu
    obtain hl | rfl | hl' := hu
    · exact List.mem_append_left _ hl
    · rw [hframes] at hreceiving
      cases hreceiving
    · exact List.mem_append_right _ hl'
  have hmove : e.move t = (e.settle (some k) (.error (.fault fault))).answer t below
      (.settled (.error (.fault fault))) := by
    simp only [move_driving hp hframes, moveDriving, halt, hk]
  have hact : u ∈ (e.act (.advance t.number)).tasks ∧
      (e.act (.advance t.number)).settled = e.settled.put k (.error (.fault fault)) := by
    simp only [Engine.act, Engine.advance, ht, hmove]
    obtain ⟨frames, hon⟩ | ⟨ending, hover⟩ :=
      answer_cases t below (.settled (.error (.fault fault)))
    · simp only [hon, Option.getD_some]
      have hput : ((e.settle (some k) (.error (.fault fault))).putTask (t.doing frames)).tasks =
          l ++ t.doing frames :: l' := tasks_putTask htasks hne rfl
      refine ⟨?_, rfl⟩
      rw [hput]
      rcases List.mem_append.1 hother with hl | hl'
      · exact List.mem_append_left _ hl
      · exact List.mem_append_right _ (List.mem_cons_of_mem _ hl')
    · simp only [hover, Option.getD_some]
      refine ⟨?_, rfl⟩
      show u ∈ e.tasks.filter _
      rw [tasks_filter htasks hne]
      exact hother
  have hsettled : (e.act (.advance t.number)).settled.get? k = some (.error (.fault fault)) := by
    rw [hact.2, Table.get?_put_self]
  refine ⟨u, hact.1, r, rest, hreceiving, ?_, ?_⟩
  · have hready : (e.act (.advance t.number)).isReady u = true := by
      simp [isReady, hreceiving, Table.contains, hsettled]
    simp [canMove, hready]
  · have hmeets : Act.Meets S (.advance t.number) := trivial
    have hacted : (e.act (.advance t.number)).Sound S := (h.act hmeets).1
    have hreturns := returns_answer (e := e.act (.advance t.number)) { u with parked := false }
      (calling_of_sound (hacted.tasks u hact.1) hreceiving) (.error (.fault fault))
    simpa [move, moveTop, hreceiving, hsettled] using hreturns

/-- A chain that stops has announced how it ended. -/
theorem IsNew.isKnown_of_stop (h : e.IsNew) {t : Task} (ht : t ∈ (e.after as).tasks) {o : Origin}
    {result : RunResult} {below : List Frame}
    (hframes : t.frames = .driving o c (.acting ⟨[], .stop result⟩) :: below) :
    e.IsKnown as t c (.stopped result) := by
  obtain ⟨L, hL, hsame, ⟨p₀, p, hrecalls⟩, -⟩ := h.remembers_top ht hframes
  obtain ⟨T₀, i, r, hT, -, hround⟩ := id hrecalls
  obtain ⟨news, hnews, htopic, hstatus⟩ := hround.stopping
  have hpublished : .published (c.notice news) ∈ L.map Prod.snd := by
    have hin : c.notice news ∈ Deed.announcements r := hnews ▸ List.mem_singleton_self _
    rw [hT]
    exact List.mem_append_right _ (Deed.mem_announcements.1 hin)
  refine .announced hL hsame hrecalls hpublished ?_ htopic hstatus
  rw [publications_after]
  exact List.mem_append_right _
    (Deed.mem_announcements.2 ((hL.map Prod.snd).subset hpublished))

/-- A call whose chain is halted in a calm history has not been settled: had the chain settled
before, the bus would have refused an announcement. -/
theorem IsNew.settled_of_halting (h : e.IsNew) (hcalm : e.IsCalm as) {t : Task}
    (ht : t ∈ (e.after as).tasks) {r : RunnerId} {k : CompletionId} {fault : Fault}
    {below : List Frame}
    (hframes : t.frames = .driving (.call r (some k)) c (.halting fault) :: below) :
    (e.after as).settled.get? k = none := by
  have hstrand := strand_mem_account ht (driving_mem_strands hframes)
  obtain ⟨L, hL, -, ⟨p₀, p, hrecalls⟩, hreceiver⟩ := h.remembers_top ht hframes
  obtain ⟨hk, -⟩ | ⟨c', v, hv, -⟩ := hreceiver k rfl
  · exact (h.owes hcalm.contained hstrand hk).settled
  · obtain ⟨n, hn⟩ := hrecalls.refused_of_settled (List.mem_map_of_mem hv)
    obtain ⟨⟨c', d'⟩, hd', rfl⟩ := List.mem_map.1 hn
    cases hcalm.accepted _ (hL.subset hd')

/-- In a calm history somebody waits for a chain that owes a completion after a delay, as nobody who
waits has been cut off. -/
theorem IsNew.waiting_of_continuation (h : e.IsNew) (hcalm : e.IsCalm as) {t : Task}
    (ht : t ∈ (e.after as).tasks) {stage : Stage} {below : List Frame}
    (hframes : t.frames = .driving .continuation c stage :: below) {k : CompletionId}
    (hk : c.completion = some k) : 0 < (e.after as).account.waiting.count k := by
  have hstrand := strand_mem_account ht (driving_mem_strands hframes)
  obtain ⟨⟨r, hr⟩, -⟩ | ⟨-, hone, hsilent⟩ := (h.owes hcalm.contained hstrand hk).caller
  · cases hr
  · have hanswers : e.answers k as = [] := by
      refine List.eq_nil_iff_forall_not_mem.2 fun x hx => ?_
      rw [hsilent x hx] at hx
      exact hcalm.answers_isSome (h.sound .any) k hx
    rw [hanswers, List.length_nil] at hone
    omega

/-- **The end of a chain is known.** In a calm history, a chain comes to its end by the move of a
task. Then it has announced how it ended, or its call returns the fault that halted it, or the call
that waits for it is told; unless it is halted after a delay, and nobody waits for it. -/
theorem IsNew.end_known (h : e.IsNew) (hcalm : e.IsCalm (before ++ [a]))
    (hd : (c, d) ∈ (e.after before).deeds a) (hlast : d.isLast = true) :
    ∃ t, a = .advance t.number ∧ (e.after before).task? t.number = some t ∧
      (e.IsKnown before t c d ∨ c.completion = none ∧ ∃ fault below, d = .halted fault ∧
        t.frames = .driving .continuation c (.halting fault) :: below) := by
  have hsound : (e.after before).Sound .any := (h.sound .any).after_any before
  have hcancelled := hcalm.uncancelled_before (h.sound .any)
  have hbefore := hcalm.left (h.sound .any)
  have hchronicle : (c, d) ∈ e.chronicle (before ++ [a]) := mem_chronicle hd []
  have hremoval := hcalm.kept a (List.mem_append_right _ List.mem_cons_self)
  obtain ⟨n, rfl⟩ : ∃ n, a = .advance n := by
    cases a with
    | advance n => exact ⟨n, rfl⟩
    | cut n => cases hremoval
    | drop place => cases hremoval
    | _ => cases hd
  simp only [deeds] at hd
  split at hd
  · rename_i t ht
    obtain ⟨hmem, rfl⟩ := task?_eq_some ht
    refine ⟨t, rfl, ht, ?_⟩
    obtain ⟨hp, o, below, ⟨result, hframes, rfl⟩ | ⟨fault, hframes, rfl⟩ | rfl⟩ :=
      deedsOf_last hcancelled hd hlast
    · exact .inl (h.isKnown_of_stop hmem hframes)
    · cases o with
      | call r receiver =>
        refine .inl (.returned hframes (by simp)
          (hsound.returns_halting hmem hp hframes (by simp) fun k hk => ?_))
        obtain rfl : receiver = some k := hk
        exact h.settled_of_halting hbefore hmem hframes
      | direct =>
        have hunsettled : ∀ k, Origin.direct.receiver? = some k →
            (e.after before).settled.get? k = none := by simp [Origin.receiver?]
        exact .inl (.returned hframes (by simp)
          (hsound.returns_halting hmem hp hframes (by simp) hunsettled))
      | continuation =>
        cases hk : c.completion with
        | none => exact .inr ⟨rfl, fault, below, rfl, hframes⟩
        | some k =>
          have hwaiting := h.waiting_of_continuation hbefore hmem hframes hk
          obtain ⟨u, hu, htelling⟩ := hsound.isTelling_of_halted ht hp hframes hk hwaiting
          rw [← after_concat] at hu htelling
          exact .inl (.told hk hu htelling)
    · cases hcalm.contained _ hchronicle
  · cases hd

end Engine

/-! ## An errand that fails in silence -/

namespace JumpAfterDelay

/-- A workflow that waits for a while and then jumps to a label that no step carries. -/
def definition : Definition := ⟨"errand", [.delay .moment, .jump "nowhere"]⟩

def registry : Registry := ⟨.put .empty "errand" definition⟩

/-- A run of an instance that nobody waits for, or whose caller waits. -/
def request (wait : Bool) : Request := { workflow := "errand", inst := some "x", wait }

/-- A run up to the delay, and the continuation up to the jump. -/
def acts (wait : Bool) : List Act :=
  [.addRunner registry .empty, .run ⟨0⟩ (.root 0) (request wait)] ++ .replicate 7 (.advance 2) ++
    .wake 0 :: .replicate 2 (.advance 5)

/-- The fault that stops the chain. -/
def fault : Fault := .unknownLabel "errand" "nowhere"

theorem isCalm (wait : Bool) : Greeting.engine.IsCalm (acts wait ++ [.advance 5]) := by
  constructor <;> cases wait <;> decide +kernel

theorem deeds_last (wait : Bool) : ∃ c, c.completion = (if wait then some ⟨3⟩ else none) ∧
    (Greeting.engine.after (acts wait)).deeds (.advance 5) = [(c, .halted fault)] := by
  cases wait <;> exact ⟨_, rfl, rfl⟩

/-- The errand is halted, and the caller who waits for it is about to be told. -/
theorem known : ∃ c t, (Greeting.engine.after (acts true)).deeds (.advance 5) =
    [(c, .halted fault)] ∧ Greeting.engine.IsKnown (acts true) t c (.halted fault) := by
  have hnew : Greeting.engine.IsNew := ⟨rfl, rfl, rfl, rfl⟩
  obtain ⟨c, hc, hdeeds⟩ := deeds_last true
  obtain ⟨t, -, -, hknown | ⟨hnone, -⟩⟩ :=
    hnew.end_known (isCalm true) (hdeeds ▸ List.mem_singleton_self _) rfl
  · exact ⟨c, t, hdeeds, hknown⟩
  · cases hc.symm.trans hnone

/-- **The errand that nobody waits for fails in silence.** Nobody interferes; its chain is halted by
the jump to nowhere. But all that has been announced is the delay, the call returned that the
instance is delayed, and nobody else is told anything. -/
theorem unreported :
    Greeting.engine.IsNew ∧ Greeting.engine.IsCalm (acts false ++ [.advance 5]) ∧
      (∃ c, (c, .halted fault) ∈ Greeting.engine.chronicle (acts false ++ [.advance 5])) ∧
      (Greeting.engine.after (acts false ++ [.advance 5])).publications.map Notice.topic =
        [.delayed] ∧
      Greeting.engine.tellings (acts false ++ [.advance 5]) = [] ∧
      ∃ result, (2, .returned (.ok result)) ∈
        (Greeting.engine.after (acts false ++ [.advance 5])).endings ∧
        result.status = .delayed := by
  refine ⟨⟨rfl, rfl, rfl, rfl⟩, isCalm false, ?_, by decide +kernel, by decide +kernel, ?_⟩
  · obtain ⟨c, -, hdeeds⟩ := deeds_last false
    rw [Engine.chronicle_concat, hdeeds]
    exact ⟨c, List.mem_append_right _ (List.mem_singleton_self _)⟩
  · exact ⟨_, List.mem_cons_self, rfl⟩

end JumpAfterDelay

end DurableFlow
