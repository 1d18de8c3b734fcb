import DurableFlow.Proofs.Histories.ChainLives
import DurableFlow.Proofs.Histories.StoredRecords

/-!
# Punctuality of delays

A chain that is laid to rest goes on no earlier than its delay says. When a step returns a delay,
the instant until which the chain rests is the sum of the present time and the delay, or the last
instant of the calendar if that comes first; whenever the chain is laid to rest afterwards, what is
still to wait for is waited for; and the deadline of its continuation is not before that instant
(`Engine.Rests`). All that is asked of a history is that continuations go off when the clock has come
to their deadlines, as they do when the clock passes (`Engine.comesOnTime_elapse`).

Main statement: `Engine.IsNew.rests_until`.
-/

namespace DurableFlow

/-- About to be laid to rest until that time or later, or to give up. -/
def Phase.IsLate (due : Instant) : Phase → Prop
  | .acting ⟨_, .suspend _ due'⟩ => due.nanos ≤ due'.nanos
  | .halting _ => True
  | _ => False

theorem Goes.isLate {p p' : Nat} {c c' : Chain} {φ φ' : Phase} {ds : List Deed} {due : Instant}
    (h : Goes p c φ ds p' c' φ') (hφ : φ.IsLate due) :
    φ'.IsLate due ∨ ∃ next, φ' = .resting next := by
  cases h with
  | @save _ es turn => cases turn <;> exact .inl hφ
  | @publish _ es turn => cases turn <;> exact .inl hφ
  | @settle _ es turn => cases turn <;> exact .inl hφ
  | suspend => exact .inr ⟨_, rfl⟩
  | unsave => exact .inl trivial
  | refuse => exact .inl trivial
  | unschedule => exact .inl trivial
  | _ => exact hφ.elim

namespace Engine

/-- The clock has come to the deadline of a continuation that goes off. -/
def IsPunctual (e : Engine) : Act → Prop
  | .wake place => ∀ x ∈ e.scheduler.timers.armed[place]?, x.deadline ≤ e.scheduler.timers.clock
  | _ => True

instance (e : Engine) (a : Act) : Decidable (e.IsPunctual a) := by
  unfold IsPunctual
  split <;> infer_instance

/-- Throughout a history, the clock has come to the deadlines of continuations that go off. -/
def RunsOnTime (e : Engine) (as : List Act) : Prop :=
  ∀ before a after, as = before ++ a :: after → (e.after before).IsPunctual a

/-- The chain of a number is about to be laid to rest, and rests, until an instant or later. -/
structure Rests (k : Nat) (due : Instant) (e : Engine) : Prop where
  strands : ∀ t ∈ e.tasks, ∀ s ∈ (Member.task t).strands, s.chain.number = k → s.phase.IsLate due
  timers : ∀ x ∈ e.scheduler.timers.armed, x.work.chain.number = k →
    due.nanos ≤ e.scheduler.timers.start.nanos + x.deadline * 1000000

variable {S : Standard} {e m : Engine} {t : Task} {k : Nat} {due : Instant} {a : Act} {c : Chain}
  {ds : List (Chain × Deed)} {rested woken : Option (Timer Continuation)} {frames : List Frame}

/-! ## The clock -/

/-- **The present never goes back.** -/
theorem Sound.now_le_act (h : e.Sound S) (a : Act) : e.now.nanos ≤ (e.act a).now.nanos := by
  have hstart := (h.retains a).start
  have hclock := (h.retains a).clock
  simp only [now, Timers.now, hstart]
  omega

theorem Sound.now_le_after (h : e.Sound .any) (as : List Act) :
    e.now.nanos ≤ (e.after as).now.nanos := by
  induction as generalizing e with
  | nil => exact le_rfl
  | cons a as ih => exact (h.now_le_act a).trans (ih (h.act_any a))

/-! ## Turns -/

/-- A chain is laid to rest until the first tick that is not before its instant. -/
theorem Turns.deadline_of_rested (h : e.Turns t ds rested frames) {x : Timer Continuation}
    (hx : x ∈ rested) : ∃ o next due below,
      t.frames = .driving o x.work.chain (.acting ⟨[], .suspend next due⟩) :: below ∧
        x.deadline = e.scheduler.timers.deadline due := by
  cases h with
  | rest ht =>
    cases hx
    exact ⟨_, _, _, _, ht, rfl⟩
  | _ => cases hx

theorem not_resting_of_strand {fs : List Frame} {s : Strand} (hs : s ∈ fs.filterMap Frame.strand?)
    (next : Nat) : s.phase ≠ .resting next := by
  obtain ⟨f, -, hf⟩ := List.mem_filterMap.1 hs
  cases f with
  | driving o c stage =>
    cases hf
    cases stage <;> nofun
  | _ => cases hf

/-- A task that takes a turn is late as before, and the chain that it lays to rest rests for as
long. -/
theorem Rests.turns (h : e.Rests k due) (ht : t ∈ e.tasks) (hk : ∀ c i, (c, .started i) ∈ ds → c.number ≠ k)
    (hturns : e.Turns t ds rested frames) :
    (∀ s ∈ frames.filterMap Frame.strand?, s.chain.number = k → s.phase.IsLate due) ∧
      ∀ x ∈ rested, x.work.chain.number = k →
        due.nanos ≤ e.scheduler.timers.start.nanos + x.deadline * 1000000 := by
  obtain ⟨hleft, -⟩ := hturns.strands
    (Q := fun s => s.chain.number = k → s.phase.IsLate due ∨ ∃ next, s.phase = .resting next)
    (h.strands t ht) (fun s hs hk => .inl (hs hk))
    (fun hs hgo _ _ hk => hgo.isLate (hs (hgo.number_eq ▸ hk)))
    fun r c i hstarted _ hck => absurd hck (hk c i hstarted)
  refine ⟨fun s hs hsk => ?_, fun x hx hxk => ?_⟩
  · obtain hlate | ⟨next, hresting⟩ := hleft s hs hsk
    · exact hlate
    · exact absurd hresting (not_resting_of_strand hs next)
  · obtain ⟨o, next, due', below, hframes, hdeadline⟩ := hturns.deadline_of_rested hx
    have hlate := h.strands t ht _ (driving_mem_strands hframes) hxk
    exact le_trans hlate (hdeadline ▸ Timers.le_deadline _ _)

/-! ## Acts -/

/-- What goes off is on time, so that its chain goes on no earlier than it should. -/
theorem Rests.stirs (h : e.Rests k due) {rested : Option (Timer Continuation)}
    (hrested : ∀ x ∈ rested, x.work.chain.number = k →
      due.nanos ≤ e.scheduler.timers.start.nanos + x.deadline * 1000000)
    (hstirs : e.Stirs rested woken m) : m.Rests k due ∨ due.nanos ≤ m.now.nanos := by
  have harmed : ∀ x ∈ woken.toList ++ m.scheduler.timers.armed, x.work.chain.number = k →
      due.nanos ≤ m.scheduler.timers.start.nanos + x.deadline * 1000000 := by
    intro x hx hxk
    rw [hstirs.start]
    rcases List.mem_append.1 (hstirs.armed.mem_iff.2 hx) with hx | hx
    · exact hrested x (Option.mem_toList.1 hx) hxk
    · exact h.timers x hx hxk
  by_cases hearly : ∃ x ∈ woken, x.work.chain.number = k
  · obtain ⟨x, hx, hxk⟩ := hearly
    have hdue := harmed x (List.mem_append_left _ (Option.mem_toList.2 hx)) hxk
    have hclock := hstirs.clock ▸ hstirs.due x hx
    refine .inr (hdue.trans ?_)
    simp only [now, Timers.now]
    omega
  · refine .inl ⟨fun t ht s hs hsk => ?_, fun x hx => harmed x (List.mem_append_right _ hx)⟩
    rw [hstirs.tasks] at ht
    rcases List.mem_append.1 ht with ht | ht
    · exact h.strands t ht s hs hsk
    · obtain ⟨x, hx, rfl⟩ := List.mem_map.1 ht
      rw [List.mem_singleton.1 hs] at hsk
      exact absurd ⟨x, Option.mem_toList.1 hx, hsk⟩ hearly

theorem Rests.putTask (h : e.Rests k due)
    (ht : ∀ s ∈ (Member.task t).strands, s.chain.number = k → s.phase.IsLate due) :
    (e.putTask t).Rests k due where
  strands u hu := by
    obtain ⟨u', hu', rfl⟩ := List.mem_map.1 hu
    split
    · exact ht
    · exact h.strands u' hu'
  timers := h.timers

/-- The task that a continuation starts, if it goes off on time. -/
theorem Rests.wake (h : e.Rests k due) {place : Nat} {x : Timer Continuation}
    (hx : e.scheduler.timers.armed[place]? = some x) (hdue : x.deadline ≤ e.scheduler.timers.clock) :
    (e.act (.wake place)).Rests k due ∨ due.nanos ≤ (e.act (.wake place)).now.nanos := by
  have hmem := List.mem_of_getElem? hx
  rw [act_wake hx]
  by_cases hxk : x.work.chain.number = k
  · have htimer := h.timers x hmem hxk
    refine .inr (htimer.trans ?_)
    show _ ≤ e.scheduler.timers.start.nanos + e.scheduler.timers.clock * 1000000
    omega
  · refine .inl ⟨fun t ht s hs hsk => ?_, fun y hy => h.timers y (List.mem_of_mem_eraseIdx hy)⟩
    rcases List.mem_append.1 ht with ht | ht
    · exact h.strands t ht s hs hsk
    · rw [List.mem_singleton.1 ht] at hs
      rw [List.mem_singleton.1 hs] at hsk
      exact absurd hsk hxk

/-- **A chain that rests rests until its instant has come.** -/
theorem Rests.act (h : e.Rests k due) (hs : e.Sound .any) (hk : k < e.next) (ha : e.IsPunctual a) :
    (e.act a).Rests k due ∨ due.nanos ≤ (e.act a).now.nanos := by
  have spawned : ∀ {token f}, f.strand? = none → (e.spawn token [f]).2.Rests k due := by
    intro token f hf
    refine ⟨fun t ht s hs hsk => ?_, h.timers⟩
    rcases List.mem_append.1 ht with ht | ht
    · exact h.strands t ht s hs hsk
    · rw [List.mem_singleton.1 ht] at hs
      simp [Member.strands, hf] at hs
  cases a with
  | advance n =>
    cases ht : e.task? n with
    | none => exact .inl ((act_advance_none ht).symm ▸ h)
    | some t =>
      obtain ⟨hmem, rfl⟩ := task?_eq_some ht
      have hstarted : ∀ c i, (c, .started i) ∈ e.deedsOf t → c.number ≠ k := by
        intro c i hd
        have hd : (c, .started i) ∈ e.deeds (.advance t.number) := by simpa [deeds, ht] using hd
        have hnumber : c.number = e.next :=
          (hs.act (Act.advance t.number).meets_any).2.number_of_started hd
        omega
      obtain ⟨-, hact⟩ | ⟨m, t', _, _, -, hstirs, hturns, hact⟩ |
        ⟨m, ending, _, _, -, hstirs, hturns, hact⟩ := hs.advance_cases hmem
      · exact .inl (hact.symm ▸ h)
      · obtain ⟨hleft, hrested⟩ := h.turns hmem hstarted hturns
        rw [hact]
        exact (h.stirs hrested hstirs).imp_left fun hm => hm.putTask hleft
      · obtain ⟨-, hrested⟩ := h.turns hmem hstarted hturns
        rw [hact]
        exact (h.stirs hrested hstirs).imp_left fun hm =>
          ⟨fun u hu => hm.strands u (List.mem_filter.1 hu).1, hm.timers⟩
  | wake place =>
    cases hx : e.scheduler.timers.armed[place]? with
    | none =>
      have hact : e.act (.wake place) = e := by simp [Engine.act, hx]
      exact .inl (hact.symm ▸ h)
    | some x => exact h.wake hx (ha x hx)
  | cancelDelay d inst =>
    obtain ⟨pending, cancelled, hact, -⟩ := e.cancelDelay_eq d inst
    rw [Engine.act, hact]
    exact .inl ⟨h.strands, h.timers⟩
  | drop place => exact .inl ⟨h.strands, fun x hx => h.timers x (List.mem_of_mem_eraseIdx hx)⟩
  | cut n => exact .inl ⟨fun t ht => h.strands t (List.mem_filter.1 ht).1, h.timers⟩
  | run runner token request => exact .inl (spawned rfl)
  | resume runner token workflow inst event => exact .inl (spawned rfl)
  | _ => exact .inl ⟨h.strands, h.timers⟩

/-- Once its instant has come, it has come; until then the chain rests. -/
theorem Rests.after (h : e.Rests k due) (hs : e.Sound .any) (hk : k < e.next) {as : List Act}
    (has : e.RunsOnTime as) : (e.after as).Rests k due ∨ due.nanos ≤ (e.after as).now.nanos := by
  induction as generalizing e with
  | nil => exact .inl h
  | cons a as ih =>
    have hsound := hs.act_any a
    obtain hrests | hdue := h.act hs hk (has [] a as rfl)
    · refine ih hrests hsound (Nat.lt_of_lt_of_le hk (hs.next_le a)) fun before b after heq => ?_
      exact has (a :: before) b after (by rw [heq]; rfl)
    · exact .inr (hdue.trans (hsound.now_le_after as))

/-! ## Delays -/

/-- A chain is there once. -/
theorem IsNew.pair_eq {as : List Act} (h : e.IsNew) {s s' : Chain × Phase}
    (hs : s ∈ (e.after as).account.pairs) (hs' : s' ∈ (e.after as).account.pairs)
    (hk : s.1.number = s'.1.number) : s = s' := by
  have hlife := (h.lives as).life s'.1.number
  have hunder : s ∈ pairsUnder s'.1.number (e.after as).account.pairs :=
    Multiset.mem_filter.2 ⟨hs, hk⟩
  have hunder' : s' ∈ pairsUnder s'.1.number (e.after as).account.pairs :=
    Multiset.mem_filter.2 ⟨hs', rfl⟩
  generalize Deed.under s'.1.number (e.chronicle as) = L at hlife
  cases hlife with
  | unborn hnone => exact absurd (hnone ▸ hunder) (Multiset.notMem_zero _)
  | closed hnone => exact absurd (hnone ▸ hunder) (Multiset.notMem_zero _)
  | going hone =>
    rw [hone] at hunder hunder'
    rw [Multiset.mem_singleton.1 hunder, Multiset.mem_singleton.1 hunder']

/-- **A chain whose step returns a delay is about to rest until the delay is over**, once the position
behind the step has been saved and the delay been announced. -/
theorem plan_of_delay {i : Nat} {d : Duration} (hd : (c, .returned i (.delay d)) ∈ m.deeds a) :
    ∃ t ∈ (m.act a).tasks, ∃ origin context below, t.frames =
      .driving origin { c with context } (.acting ⟨[.save (i + 1),
        .publish (.delayed (i + 1) (m.now.after d))], .suspend (i + 1) (m.now.after d)⟩) :: below := by
  obtain ⟨t, ht, rfl, hp, origin, context, below, hframes⟩ := task_of_returned hd
  have hmove : m.move t = .on m (t.doing (.driving origin { c with context } (.acting
      ⟨[.save (i + 1), .publish (.delayed (i + 1) (m.now.after d))],
        .suspend (i + 1) (m.now.after d)⟩) :: below)) := by
    simp only [move_driving hp hframes, moveDriving, moveInside]
    rfl
  rw [act_advance_on ht hmove]
  refine ⟨_, List.mem_map.2 ⟨t, (task?_eq_some ht).1, if_pos ?_⟩, origin, context, below, rfl⟩
  exact beq_self_eq_true t.number

/-- A chain whose step returns a delay rests until the delay is over. -/
theorem IsNew.rests {before : List Act} (h : e.IsNew) {i : Nat} {d : Duration}
    (hd : (c, .returned i (.delay d)) ∈ (e.after before).deeds a) :
    ((e.after before).act a).Rests c.number ((e.after before).now.after d) := by
  obtain ⟨t, ht, origin, context, below, hframes⟩ := plan_of_delay hd
  rw [← after_concat] at ht ⊢
  have hpair := Multiset.mem_map_of_mem Strand.pair
    (strand_mem_account ht (driving_mem_strands hframes))
  have only : ∀ s ∈ (e.after (before ++ [a])).account.strands, s.chain.number = c.number → _ :=
    fun s hs hk => h.pair_eq (Multiset.mem_map_of_mem Strand.pair hs) hpair hk
  refine ⟨fun u hu s hs hk => ?_, fun x hx hk => ?_⟩
  · have hphase : s.phase = _ := congrArg Prod.snd (only s (strand_mem_account hu hs) hk)
    rw [hphase]
    exact le_rfl
  · have hmem : x.strand ∈ (e.after (before ++ [a])).account.strands :=
      Multiset.mem_add.2 (.inr (List.mem_map_of_mem hx))
    cases congrArg Prod.snd (only x.strand hmem hk)

/-- The number of a chain that does something has been drawn. -/
theorem IsNew.number_lt {before : List Act} (h : e.IsNew) {d : Deed}
    (hd : (c, d) ∈ (e.after before).deeds a) : c.number < ((e.after before).act a).next := by
  rw [← after_concat]
  refine (h.lives (before ++ [a])).deeds (c, d) ?_
  rw [chronicle_concat]
  exact List.mem_append_right _ hd

/-- The task that goes on with a chain is there afterwards. -/
theorem mem_of_woken? (ht : t ∈ e.woken? a) : t ∈ (e.act a).tasks := by
  unfold woken? at ht
  split at ht
  · cases ht
  · exact List.mem_of_find?_eq_some ht

/-- **Delays saturate and nothing goes off early.** The instant until which a chain rests is the sum of
the present time and its delay, or the last instant of the calendar if that comes first, and grows
with the delay; who waits from a later time on waits until then; and a chain whose step has returned
a delay rests until that instant, and goes on no earlier. -/
theorem IsNew.rests_until (h : e.IsNew) (hnow : Instant.earliest.nanos ≤ e.now.nanos) {as : List Act}
    (has : e.RunsOnTime as) :
    (∀ now : Instant, Instant.earliest.nanos ≤ now.nanos → ∀ d : Duration,
      (now.after d).nanos = min (now.nanos + d.nanos) Instant.latest.nanos ∧
      Instant.earliest.nanos ≤ (now.after d).nanos ∧
      (now.after d).nanos ≤ Instant.latest.nanos ∧
      ∀ d' : Duration, d.nanos ≤ d'.nanos → (now.after d).nanos ≤ (now.after d').nanos) ∧
    (∀ now due : Instant, now.nanos + now.waitFrom due = max now.nanos due.nanos) ∧
    ∀ before a rest, as = before ++ a :: rest → ∀ c i d,
      (c, .returned i (.delay d)) ∈ (e.after before).deeds a →
      let now := (e.after before).now
      (∃ t ∈ (e.after (before ++ [a])).tasks, ∃ origin context below, t.frames =
        .driving origin { c with context } (.acting ⟨[.save (i + 1),
          .publish (.delayed (i + 1) (now.after d))], .suspend (i + 1) (now.after d)⟩) :: below) ∧
      ∀ between b after, rest = between ++ b :: after →
        ∀ t ∈ (e.after (before ++ a :: between)).woken? b, ∀ c' j,
          t.frames = [.driving .continuation c' (.entering j)] → c'.number = c.number →
            min (now.nanos + d.nanos) Instant.latest.nanos ≤
              (e.after (before ++ a :: (between ++ [b]))).now.nanos := by
  have hsound : ∀ as, (e.after as).Sound .any := (h.sound .any).after_any
  refine ⟨fun now hearly d => ?_, fun now due => ?_, ?_⟩
  · have hafter := now.nanos_after d hearly
    refine ⟨hafter, ?_, ?_, fun d' hle => ?_⟩
    · rw [hafter, Instant.earliest_nanos, Instant.latest_nanos] at *
      omega
    · rw [hafter]
      exact min_le_right _ _
    · rw [hafter, now.nanos_after d' hearly]
      omega
  · rw [Instant.waitFrom]
    omega
  · rintro before a rest rfl c i d hd now
    refine ⟨by rw [after_concat]; exact plan_of_delay hd, ?_⟩
    rintro between b after rfl t ht c' j hframes hk
    rw [← now.nanos_after d (hnow.trans ((h.sound .any).now_le_after before))]
    have hon : ((e.after before).act a).RunsOnTime (between ++ [b]) := by
      intro l x l' heq
      have heq : between ++ b :: after = l ++ x :: (l' ++ after) := by
        simpa using congrArg (· ++ after) heq
      have hx := has (before ++ a :: l) x (l' ++ after) (by rw [heq]; simp)
      rwa [after_append, after_cons] at hx
    obtain hrests | hdue := (h.rests hd).after ((hsound before).act_any a) (h.number_lt hd) hon
    · have hmem : t ∈ (((e.after before).act a).after (between ++ [b])).tasks := by
        have ht := mem_of_woken? ht
        rwa [after_append, after_cons, ← after_concat] at ht
      exact (hrests.strands t hmem _ (driving_mem_strands hframes) hk).elim
    · rw [after_append, after_cons]
      exact hdue

/-! ## The passing of time -/

/-- One engine comes from another by a history in which continuations go off on time. -/
def ComesOnTime (e e' : Engine) : Prop := ∃ as, e.RunsOnTime as ∧ e' = e.after as

namespace ComesOnTime

variable {e' e'' : Engine}

theorem refl (e : Engine) : e.ComesOnTime e := by
  refine ⟨[], fun before a after h => ?_, rfl⟩
  cases before <;> cases h

theorem act (ha : e.IsPunctual a) : e.ComesOnTime (e.act a) := by
  refine ⟨[a], fun before b after h => ?_, rfl⟩
  cases before with
  | nil =>
    cases h
    exact ha
  | cons _ before => cases before <;> cases h

theorem trans (h : e.ComesOnTime e') (h' : e'.ComesOnTime e'') : e.ComesOnTime e'' := by
  obtain ⟨as, has, rfl⟩ := h
  obtain ⟨bs, hbs, rfl⟩ := h'
  refine ⟨as ++ bs, fun before a after heq => ?_, (after_append ..).symm⟩
  obtain ⟨l, rfl, hl⟩ | ⟨l, rfl, hl⟩ := List.append_eq_append_iff.1 heq
  · rw [after_append]
    exact hbs l a after hl
  · cases l with
    | nil =>
      have hfirst := hbs [] a after hl.symm
      rwa [List.append_nil] at hfirst
    | cons b l =>
      cases hl
      exact has before a l rfl

/-- Tasks that are taken on. -/
theorem run (fuel : Nat) (queue : List Nat) (e : Engine) : e.ComesOnTime (run fuel queue e) := by
  induction fuel generalizing queue e with
  | zero => exact refl e
  | succ fuel ih =>
    cases queue with
    | nil => exact refl e
    | cons number queue =>
      rw [Engine.run]
      cases hadvance : e.advance number with
      | none => exact ih _ e
      | some e' =>
        have hact : e.act (.advance number) = e' := by simp [Engine.act, hadvance]
        have hfirst : e.ComesOnTime e' := hact ▸ act trivial
        dsimp only
        split
        · exact hfirst.trans (ih _ e')
        · exact hfirst.trans (ih _ e')

/-- Continuations that are dropped, one after the other. -/
theorem drop {xs ys : List (Timer Continuation)} (h : ys.Sublist xs) (pre : List (Timer Continuation))
    (hpre : e.scheduler.timers.armed = pre ++ xs) :
    e.ComesOnTime (e.withTimers { e.scheduler.timers with armed := pre ++ ys }) := by
  induction h generalizing e pre with
  | slnil =>
    rw [← hpre]
    exact refl e
  | @cons ys xs x _ ih =>
    have hdrop : (e.act (.drop pre.length)).scheduler.timers.armed = pre ++ xs := by
      show e.scheduler.timers.armed.eraseIdx pre.length = pre ++ xs
      rw [hpre, List.eraseIdx_append_of_length_le le_rfl, Nat.sub_self]
      rfl
    have hfirst : e.ComesOnTime (e.act (.drop pre.length)) := act trivial
    exact hfirst.trans (ih pre hdrop)
  | @cons_cons ys xs x _ ih =>
    have hrest := ih (pre ++ [x]) (by rw [hpre, List.append_assoc]; rfl)
    rwa [List.append_assoc] at hrest

/-- Continuations that are dropped because their tokens are cancelled. -/
theorem dropCancelled (e : Engine) : e.ComesOnTime e.dropCancelled.1 := by
  unfold Engine.dropCancelled
  generalize e.scheduler.timers.armed = xs
  -- The engine and the queue change as the timers are gone through, and the engine comes on time.
  have hstate : e.ComesOnTime (e, ([] : List Nat)).1 := refl e
  generalize (e, ([] : List Nat)) = state at hstate ⊢
  induction xs generalizing state with
  | nil => exact hstate
  | cons x xs ih =>
    rw [List.foldl_cons]
    refine ih _ ?_
    dsimp only
    split
    · exact hstate.trans (drop List.filter_sublist [] rfl)
    · exact hstate

theorem quiesce (fuel rounds : Nat) (e : Engine) : e.ComesOnTime (quiesce fuel rounds e) := by
  induction rounds generalizing e with
  | zero => exact refl e
  | succ rounds ih =>
    have hdropped := (run fuel (e.enqueue []) e).trans (dropCancelled _)
    rw [Engine.quiesce]
    dsimp only
    split
    · exact hdropped
    · exact (hdropped.trans (run ..)).trans (ih _)

theorem moveTo (e : Engine) (clock : Nat) :
    e.ComesOnTime (e.withTimers (e.scheduler.timers.moveTo clock)) := by
  have hpass : e.ComesOnTime (e.act (.pass (clock - e.scheduler.timers.clock))) := act trivial
  have hclock : e.scheduler.timers.moveTo (e.scheduler.timers.clock + (clock - e.scheduler.timers.clock)) =
      e.scheduler.timers.moveTo clock := by
    rw [Timers.moveTo, Timers.moveTo]
    congr 1
    omega
  rw [Engine.act, hclock] at hpass
  exact hpass

/-- What goes off when the clock passes its deadline. -/
theorem pop {timer : Timer Continuation} {timers : Timers Continuation} {limit : Nat}
    (h : e.scheduler.timers.pop? limit = some (timer, timers)) :
    e.ComesOnTime ((e.withTimers timers).resumeContinuation timer.token timer.work) := by
  unfold Timers.pop? at h
  split at h
  · cases h
  · rename_i x rest harmed
    split at h
    · cases h
      -- The clock moves on to the deadline, and then the first of the timers goes off.
      let m := e.withTimers (e.scheduler.timers.moveTo timer.deadline)
      have hfirst : m.scheduler.timers.armed[0]? = some timer := by
        show e.scheduler.timers.armed[0]? = some timer
        rw [harmed]
        rfl
      have hon : m.IsPunctual (.wake 0) := by
        intro x hx
        rw [hfirst] at hx
        cases hx
        exact Nat.le_max_right _ _
      have hdisarm : m.disarm 0 = e.withTimers
          { e.scheduler.timers with
            clock := max e.scheduler.timers.clock timer.deadline, armed := rest } := by
        show e.withTimers { e.scheduler.timers with
          clock := max e.scheduler.timers.clock timer.deadline
          armed := e.scheduler.timers.armed.eraseIdx 0 } = _
        rw [harmed]
        rfl
      have hwake := (moveTo e timer.deadline).trans (act hon)
      simp only [Engine.act] at hwake
      rw [hfirst] at hwake
      dsimp only at hwake
      rwa [hdisarm] at hwake
    · cases h

theorem passUntil (limit fuel : Nat) (e : Engine) : e.ComesOnTime (passUntil limit fuel e) := by
  induction fuel generalizing e with
  | zero => exact refl e
  | succ fuel ih =>
    rw [Engine.passUntil]
    split
    · split
      · rename_i timer timers hpop
        exact ((pop hpop).trans (quiesce ..)).trans (ih _)
      · exact refl e
    · exact refl e

end ComesOnTime

/-- **When the clock passes, continuations go off on time.** -/
theorem comesOnTime_elapse (e : Engine) (millis : Nat) : e.ComesOnTime (e.elapse millis) := by
  have hlimit := ComesOnTime.moveTo (passUntil (e.scheduler.timers.clock + millis) patience e)
    (e.scheduler.timers.clock + millis)
  exact (ComesOnTime.passUntil ..).trans hlimit

end Engine

namespace DelayedRun

/-- An instance is started, and its first step is about to be executed. -/
def starts : List Act :=
  .addRunner registry .empty :: .run ⟨0⟩ (.root 100) { workflow := "nap", inst := some "x" } ::
    .replicate 2 (.advance 2)

/-- The instance is laid to rest, and a millisecond passes. -/
def sleeps : List Act := .replicate 4 (.advance 2) ++ [.pass 1]

/-- The instance rests, and goes on once its delay is over. -/
def wakes : List Act := starts ++ .advance 2 :: (sleeps ++ [.wake 0])

/-- The chain that goes on has rested for as long as its step said. -/
theorem rested :
    Greeting.engine.IsNew ∧ Instant.earliest.nanos ≤ Greeting.engine.now.nanos ∧
      Greeting.engine.RunsOnTime wakes ∧
      ∃ c c' t, (c, .returned 0 (.delay .moment)) ∈
          (Greeting.engine.after starts).deeds (.advance 2) ∧
        t ∈ (Greeting.engine.after (starts ++ .advance 2 :: sleeps)).woken? (.wake 0) ∧
        t.frames = [.driving .continuation c' (.entering 1)] ∧ c'.number = c.number ∧
        min ((Greeting.engine.after starts).now.nanos + Duration.moment.nanos)
          Instant.latest.nanos ≤ (Greeting.engine.after wakes).now.nanos := by
  have hnew : Greeting.engine.IsNew := ⟨rfl, rfl, rfl, rfl⟩
  have hnow : Instant.earliest.nanos ≤ Greeting.engine.now.nanos := by decide
  have hon : Greeting.engine.RunsOnTime wakes := Act.forall_split (by decide +kernel)
  obtain ⟨c, c', t, hdeeds, hwoken, hframes, hk⟩ : ∃ c c' t,
      (Greeting.engine.after starts).deeds (.advance 2) = [(c, .returned 0 (.delay .moment))] ∧
      (Greeting.engine.after (starts ++ .advance 2 :: sleeps)).woken? (.wake 0) = some t ∧
      t.frames = [.driving .continuation c' (.entering 1)] ∧ c'.number = c.number :=
    ⟨_, _, _, rfl, rfl, rfl, rfl⟩
  have hd : (c, .returned 0 (.delay .moment)) ∈
      (Greeting.engine.after starts).deeds (.advance 2) :=
    hdeeds ▸ List.mem_singleton_self _
  have hrests := (hnew.rests_until hnow hon).2.2 starts (.advance 2) (sleeps ++ [.wake 0]) rfl
    c 0 .moment hd
  exact ⟨hnew, hnow, hon, c, c', t, hd, hwoken, hframes, hk,
    hrests.2 sleeps (.wake 0) [] rfl t hwoken c' 1 hframes hk⟩

end DelayedRun

end DurableFlow
