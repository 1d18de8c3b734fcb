import DurableFlow.Proofs.Families.RecalledDeeds

/-!
# Cancelled runs

What is left to do once the token of a run has been cancelled. The family of the run is its task,
the nested runs in it, the tasks that go on with its chains after delays, and all that descends from
those; all of them are under the token of the run (`Engine.IsNew.isWithin`).

Main statement: no step of the family starts any more, a step that waits is aborted and nothing
comes of it, and what is still done follows from an outcome of a step that had started before; but a
chain that starts behind its last step completes all the same (`Engine.IsNew.ceases`,
`NoSteps.completes_cancelled`).
-/

namespace DurableFlow

/-- Whether a deed is one by which a chain acts on the outside, tries to, or ends well. -/
def Deed.isEffect : Deed → Bool
  | .saved _ | .unsaved _ | .published _ | .refused _ | .settled _ | .suspended _ | .unscheduled _
  | .stopped _ => true
  | _ => false

/-- The deeds by which the next thing of a plan is done for a chain, or fails. -/
inductive Plan.Attempts (c : Chain) : Plan → Deed → Prop
  | saved {next es turn} : Attempts c ⟨.save next :: es, turn⟩ (.saved next)
  | unsaved {next es turn} : Attempts c ⟨.save next :: es, turn⟩ (.unsaved next)
  | published {news es turn} : Attempts c ⟨.publish news :: es, turn⟩ (.published (c.notice news))
  | refused {news es turn} : Attempts c ⟨.publish news :: es, turn⟩ (.refused (c.notice news))
  | settled {s es turn} : Attempts c ⟨.settle s :: es, turn⟩ (.settled s)
  | unscheduled {next due} : Attempts c ⟨[], .suspend next due⟩ (.unscheduled next)
  | stopped {result} : Attempts c ⟨[], .stop result⟩ (.stopped result)

/-- What is left of a plan once some of its effects are done. -/
def Plan.IsLeftOf (plan whole : Plan) : Prop :=
  ∃ done, whole = ⟨done ++ plan.effects, plan.turn⟩

/-- Why a chain has a plan, of which this is left: a step that it had executed before a certain time
has returned, or it has run past its last step, or it started behind that. -/
inductive Plan.IsDue (earlier T : List Deed) (c : Chain) (plan : Plan) : Prop
  | outcome {i o now whole} (hexecuted : .executed i ∈ earlier) (hreturned : .returned i o ∈ T)
      (hplan : ofOutcome c.definition c.context i now o = .ok whole) (hleft : plan.IsLeftOf whole)
  | passed {i j o now whole context} (hexecuted : .executed i ∈ earlier)
      (hreturned : .returned i o ∈ T)
      (hplan : ofOutcome c.definition context i now o = .ok whole) (hnext : whole.turn.next? = some j)
      (hj : c.definition.size ≤ j) (hleft : plan.IsLeftOf (atEnd c.context))
  | behind {j} (hstarted : .started j ∈ T) (hj : c.definition.size ≤ j)
      (hleft : plan.IsLeftOf (atEnd c.context))

/-- A plan that a chain has follows from what the chain has done, and executed earlier. -/
def Plan.Follows (earlier later : List (Chain × Deed)) (c : Chain) (plan : Plan) : Prop :=
  ∃ L L' : List (Chain × Deed), L.Sublist earlier ∧ L'.Sublist later ∧
    (∀ x ∈ L ++ L', x.1.GoesOnAs c) ∧ plan.IsDue (L.map Prod.snd) ((L ++ L').map Prod.snd) c

/-- A task that does nothing any more but to give up. -/
inductive Task.IsDoomed (t : Task) : Prop
  /-- The step that it is within will be aborted. -/
  | suspended (hp : t.parked = true) (ht : (Engine.abandon t).isSome = true)
  | halting {o c} (hp : t.parked = false) (ht : t.frames = [.driving o c (.halting .cancelled)])

theorem Task.Sound.isDoomed {S : Standard} {t : Task} (h : t.Sound S) (hp : t.parked = true)
    (hwaiting : t.isWaiting = true) {o : Origin} {c : Chain} {stage : Stage}
    (ht : .driving o c stage ∈ t.frames) : t.IsDoomed := by
  refine .suspended hp ?_
  obtain ⟨f, fs, hframes⟩ := List.exists_cons_of_ne_nil (List.ne_nil_of_mem ht)
  -- The outermost frame is within a step, as it waits for a signal or for a nested run.
  obtain ⟨o', c', stage', hlast, hinside⟩ : ∃ o' c' stage',
      t.frames.getLast? = some (.driving o' c' stage') ∧ stage'.isInside = true := by
    cases fs with
    | nil =>
      rw [hframes] at ht ⊢
      obtain rfl := List.mem_singleton.1 ht
      refine ⟨o, c, stage, rfl, ?_⟩
      have hwaits : (Frame.driving o c stage).isWaiting = true := by
        simpa [Task.isWaiting, hframes] using hwaiting
      cases stage with
      | inside i b => rfl
      | _ => cases hwaits
    | cons g rest =>
      have hmem : (g :: rest).getLast (List.cons_ne_nil g rest) ∈ t.frames.tail := by
        rw [hframes]
        exact List.getLast_mem _
      have hcalling := h.calling _ hmem
      have hlast : t.frames.getLast? = some ((g :: rest).getLast (List.cons_ne_nil g rest)) := by
        rw [hframes, List.getLast?_cons_cons, List.getLast?_eq_some_getLast]
      rw [hlast]
      revert hcalling
      generalize (g :: rest).getLast (List.cons_ne_nil g rest) = last
      intro hcalling
      cases last with
      | driving o' c' stage' =>
        cases stage' with
        | calling i next => exact ⟨o', c', _, rfl, rfl⟩
        | _ => cases hcalling
      | _ => cases hcalling
  simp [Engine.abandon, hlast, hinside]

namespace Engine

variable {S : Standard} {e e' : Engine} {a : Act} {as bs : List Act}
  {own : Nat → Bool} {τ : Token} {t : Task} {c : Chain} {d : Deed}

theorem isCancelled_mono (h : e.cancelled <:+ e'.cancelled) {token : Token}
    (hc : e.isCancelled token = true) : e'.isCancelled token = true := by
  obtain ⟨r, hr, hwithin⟩ := List.any_eq_true.1 hc
  exact List.any_eq_true.2 ⟨r, h.subset hr, hwithin⟩

/-! ## The token of a family -/

theorem handed_isWithin (τ : Token) : Handed fun _ m => m.token.isWithin τ = true where
  mono h _ := h
  left h ht t' ht' := by
    show t'.token.isWithin τ = true
    rw [h.token t' ht']
    exact ht
  rested h ht x hx := by
    show x.token.isWithin τ = true
    rw [(h.turns.of_rested x hx).1]
    exact Token.isWithin_trans (Token.isWithin_child _ _) ht
  woken h _ := h

/-- The tasks of a family are started under a token. -/
def IsUnder (e : Engine) (own : Nat → Bool) (τ : Token) (as : List Act) : Prop :=
  ∀ before a after token f, as = before ++ a :: after → a.opening? = some (token, f) →
    own (e.after before).next = true → token.isWithin τ = true

theorem IsUnder.left (h : e.IsUnder own τ (as ++ bs)) : e.IsUnder own τ as := by
  rintro before a after token f rfl
  exact h before a (after ++ bs) token f (by simp)

/-- **A family stays under the token with which it was started.** -/
theorem IsNew.isWithin (h : e.IsNew) (hown : e.IsHereditary own as) (hunder : e.IsUnder own τ as) :
    ∀ m ∈ (e.after as).members, own m.number = true → m.token.isWithin τ = true :=
  (handed_isWithin τ).after h hown hunder

/-! ## What gives up -/

/-- A task that was there before, and is not taken on, is as it was. -/
theorem Passage.task_of_lt {M R : Multiset Member} {woken : Option (Timer Continuation)}
    (h : e.Passage a M R woken) (ht : .task t ∈ (e.act a).members) (hlt : t.number < e.next)
    (ha : a ≠ .advance t.number) : .task t ∈ e.members := by
  have hR : .task t ∈ R := by
    obtain ⟨x, hx, heq⟩ | ht := h.mem_cases ht
    · cases heq
      have hdrawn := h.drawn (Option.isSome_of_mem hx)
      have hnumber : (e.act a).next - 1 < e.next := hlt
      omega
    · exact ht
  cases h.alters.comes _ (h.mem_of_mem_rest hR) with
  | keep hm => exact hm
  | left _ ha' h ht' => exact absurd (h.number t ht' ▸ ha') ha
  | start => exact absurd hlt (Nat.lt_irrefl _)

/-- A task that is to give up goes on doing so, and leaves the store as it is. -/
theorem move_of_isDoomed (hc : e.isCancelled t.token = true) (h : t.IsDoomed) :
    (∃ t', e.move t = .on e t' ∧ t'.IsDoomed ∧ t'.number = t.number ∧ t'.token = t.token) ∨
      ∃ e' ending, e.move t = .over e' ending ∧ e'.store = e.store ∧ e'.tasks = e.tasks := by
  cases h with
  | suspended hp ht =>
    obtain ⟨t', ht'⟩ := Option.isSome_iff_exists.1 ht
    refine .inl ⟨t', by simp [move, hp, hc, ht'], ?_⟩
    obtain ⟨_, _, _, _, -, -, rfl⟩ := abandon_eq_some ht'
    exact ⟨.halting rfl rfl, rfl, rfl⟩
  | @halting o c hp ht =>
    have hmove : e.move t = e.halt t [] o c .cancelled := by
      simp [move_driving hp ht, moveDriving]
    refine .inr ?_
    rw [hmove]
    cases o with
    | call r receiver => cases receiver <;> exact ⟨e, _, rfl, rfl, rfl⟩
    | direct => exact ⟨e, _, rfl, rfl, rfl⟩
    | continuation => exact ⟨_, _, rfl, by rw [settle_eq], by rw [settle_eq]⟩

theorem deedsOf_of_isDoomed (h : t.IsDoomed) (hd : (c, d) ∈ e.deedsOf t) :
    d = .lost ∨ d = .halted .cancelled := by
  unfold deedsOf at hd
  cases h with
  | suspended hp ht =>
    rw [if_pos hp] at hd
    split at hd
    · obtain ⟨c', -, heq⟩ := List.mem_map.1 hd
      cases heq
      exact .inl rfl
    · cases hd
  | halting hp ht =>
    obtain ⟨-, rfl⟩ : c = _ ∧ d = .halted .cancelled := by simpa [hp, ht, deed?] using hd
    exact .inr rfl

/-- The tasks of that number give up, their token being cancelled. -/
def GivesUp (e : Engine) (n : Nat) : Prop :=
  ∀ t ∈ e.tasks, t.number = n → t.IsDoomed ∧ e.isCancelled t.token = true

namespace GivesUp

variable {n : Nat}

/-- A task that is to give up does nothing else, whatever happens. -/
theorem act (h : e.GivesUp n) (hsound : e.Sound .any) (hn : n < e.next) (a : Act) :
    (e.act a).GivesUp n := by
  intro t ht hnumber
  by_cases ha : a = .advance n
  · subst ha
    cases ht₀ : e.task? n with
    | none =>
      have hact : e.act (.advance n) = e := Engine.act_advance_none ht₀
      rw [hact] at ht ⊢
      exact h t ht hnumber
    | some t₀ =>
      obtain ⟨rfl, l, r, htasks, hne⟩ := hsound.exists_split ht₀
      obtain ⟨hdoomed, hc⟩ := h t₀ (task?_eq_some ht₀).1 rfl
      obtain ⟨t', hmove, hdoomed', hnumber', htoken⟩ | ⟨e', ending, hmove, -, htasks'⟩ :=
        move_of_isDoomed hc hdoomed
      · have hact : e.act (.advance t₀.number) = e.putTask t' := Engine.act_advance_on ht₀ hmove
        rw [hact] at ht ⊢
        rw [tasks_putTask htasks hne hnumber', List.mem_append, List.mem_cons] at ht
        obtain ht | rfl | ht := ht
        · exact absurd hnumber (hne t (List.mem_append_left _ ht))
        · exact ⟨hdoomed', htoken ▸ hc⟩
        · exact absurd hnumber (hne t (List.mem_append_right _ ht))
      · have hact : e.act (.advance t₀.number) = e'.endTask t₀.number ending :=
          Engine.act_advance_over ht₀ hmove
        rw [hact, endTask] at ht
        exact absurd hnumber (bne_iff_ne.1 (List.mem_filter.1 ht).2)
  · obtain ⟨M, R, woken, hpassage⟩ := hsound.passage a
    have hmem := hpassage.task_of_lt (task_mem_members ht) (hnumber ▸ hn) (hnumber ▸ ha)
    obtain ⟨hdoomed, hc⟩ := h t (mem_tasks_of_members hmem) hnumber
    exact ⟨hdoomed, isCancelled_mono (hsound.retains a).cancelled hc⟩

theorem after (h : e.GivesUp n) (hsound : e.Sound .any) (hn : n < e.next) (as : List Act) :
    (e.after as).GivesUp n := by
  induction as generalizing e with
  | nil => exact h
  | cons a as ih =>
    exact ih (h.act hsound hn a) (hsound.act_any a) (Nat.lt_of_lt_of_le hn (hsound.next_le a))

/-- Nothing comes of a step that is aborted. -/
theorem deeds (h : e.GivesUp n) (ha : a = .advance n ∨ a = .cut n) :
    (∀ c d, (c, d) ∈ e.deeds a → d = .lost ∨ d = .halted .cancelled) ∧
      (e.act a).position = e.position := by
  obtain rfl | rfl := ha
  · cases ht : e.task? n with
    | none => simp [Engine.deeds, Engine.act_advance_none ht, ht]
    | some t =>
      obtain ⟨hmem, hnumber⟩ := task?_eq_some ht
      obtain ⟨hdoomed, hc⟩ := h t hmem hnumber
      refine ⟨fun c d hd => ?_, ?_⟩
      · simp only [Engine.deeds, ht] at hd
        exact deedsOf_of_isDoomed hdoomed hd
      · obtain ⟨t', hmove, -⟩ | ⟨e', ending, hmove, hstore, -⟩ := move_of_isDoomed hc hdoomed
        · rw [Engine.act_advance_on ht hmove]
          rfl
        · rw [Engine.act_advance_over ht hmove]
          exact position_congr (congrArg Store.backing hstore)
  · refine ⟨fun c d hd => ?_, rfl⟩
    simp only [Engine.deeds] at hd
    split at hd
    · obtain ⟨c', -, heq⟩ := List.mem_map.1 hd
      cases heq
      exact .inl rfl
    · cases hd

end GivesUp

/-! ## What is still done -/

/-- Under a cancelled token no continuation is armed. -/
theorem suspend_of_isCancelled (hc : e.isCancelled t.token = true) (next : Nat) (due : Instant) :
    ∃ error, (e.suspend c t.token next due).2 = .error error := by
  have hchild : (t.token.child e.next).isCancelled e.cancelled = true :=
    Token.isCancelled_child _ hc
  cases hs : e.scheduler.schedule e.cancelled due (t.token.child e.next) ⟨c, next, e.next⟩ with
  | mk scheduler result =>
    cases result with
    | error error => exact ⟨_, by simp only [suspend, fresh, track, hs]; rfl⟩
    | ok _ =>
      simp only [Scheduler.schedule, hchild, if_true] at hs
      split at hs <;> cases hs

/-- Under a cancelled token a task executes no step, and acts only on a plan that it has. -/
theorem deedsOf_of_isCancelled (hc : e.isCancelled t.token = true) (hd : (c, d) ∈ e.deedsOf t) :
    (∀ i, d ≠ .executed i) ∧ (d.isEffect = true →
      ∃ o plan below, t.frames = .driving o c (.acting plan) :: below ∧ plan.Attempts c d) := by
  unfold deedsOf at hd
  cases hp : t.parked with
  | true =>
    simp only [hp, hc, Bool.true_and, if_true] at hd
    split at hd
    · obtain ⟨c', -, heq⟩ := List.mem_map.1 hd
      cases heq
      exact ⟨nofun, nofun⟩
    · cases hd
  | false =>
    simp only [hp, Bool.false_eq_true, if_false] at hd
    split at hd
    · unfold Move.started at hd
      split at hd
      · cases List.mem_singleton.1 hd
        exact ⟨nofun, nofun⟩
      · cases hd
    · rename_i o c' stage below hframes
      obtain ⟨d', hd', heq⟩ := Option.map_eq_some_iff.1 (Option.mem_toList.1 hd)
      cases heq
      rw [hframes]
      unfold deed? at hd'
      split at hd'
      · split at hd'
        · cases hd'
          exact ⟨nofun, nofun⟩
        · cases hd'
      · cases hd'
        exact ⟨nofun, nofun⟩
      · cases hd'
        exact ⟨nofun, nofun⟩
      · cases hd'
      · cases hd'
      · split at hd' <;> cases hd'
        · exact ⟨nofun, fun _ => ⟨_, _, _, rfl, .saved⟩⟩
        · exact ⟨nofun, fun _ => ⟨_, _, _, rfl, .unsaved⟩⟩
      · split at hd' <;> cases hd'
        · exact ⟨nofun, fun _ => ⟨_, _, _, rfl, .published⟩⟩
        · exact ⟨nofun, fun _ => ⟨_, _, _, rfl, .refused⟩⟩
      · cases hd'
        exact ⟨nofun, fun _ => ⟨_, _, _, rfl, .settled⟩⟩
      · cases hd'
      · rename_i next due
        obtain ⟨error, herror⟩ := suspend_of_isCancelled (c := c) hc next due
        rw [herror] at hd'
        cases hd'
        exact ⟨nofun, fun _ => ⟨_, _, _, rfl, .unscheduled⟩⟩
      · cases hd'
        exact ⟨nofun, fun _ => ⟨_, _, _, rfl, .stopped⟩⟩
      · cases hd'
        exact ⟨nofun, nofun⟩
    · cases hd

/-- What is done for a family is done by a task of it, or its chains are taken away. -/
theorem deeds_of_concerns (ha : e.concerns own a = true) (hd : (c, d) ∈ e.deeds a) :
    (∃ t ∈ e.tasks, own t.number = true ∧ (c, d) ∈ e.deedsOf t) ∨ d = .lost ∨ d = .dropped := by
  cases a with
  | advance n =>
    simp only [deeds] at hd
    split at hd
    · rename_i t ht
      obtain ⟨hmem, rfl⟩ := task?_eq_some ht
      exact .inl ⟨t, hmem, ha, hd⟩
    · cases hd
  | drop place =>
    simp only [deeds] at hd
    split at hd
    · cases List.mem_singleton.1 hd
      split
      · exact .inr (.inr rfl)
      · exact .inr (.inl rfl)
    · cases hd
  | cut n =>
    simp only [deeds] at hd
    split at hd
    · obtain ⟨c', -, heq⟩ := List.mem_map.1 hd
      cases heq
      exact .inr (.inl rfl)
    · cases hd
  | _ => cases hd

/-- The tasks of a family are cancelled along with the token that it was started with. -/
theorem IsNew.isCancelled (h : e.IsNew) (hown : e.IsHereditary own (as ++ bs))
    (hunder : e.IsUnder own τ (as ++ bs)) (hc : (e.after as).isCancelled τ = true) {t : Task}
    (ht : t ∈ (e.after (as ++ bs)).tasks) (htown : own t.number = true) :
    (e.after (as ++ bs)).isCancelled t.token = true := by
  have hwithin := h.isWithin hown hunder _ (task_mem_members ht) htown
  rw [after_append] at ht ⊢
  have hsuffix := ((h.sound .any).after_any as).cancelled_suffix_after bs
  exact Token.isCancelled_of_isWithin hwithin (isCancelled_mono hsuffix hc)

/-- No step of a family starts once its token is cancelled. -/
theorem IsNew.idle (h : e.IsNew) (hown : e.IsHereditary own (as ++ bs))
    (hunder : e.IsUnder own τ (as ++ bs)) (hc : (e.after as).isCancelled τ = true) :
    ∀ c i, (c, .executed i) ∉ (e.after as).doings own bs := by
  induction bs using List.reverseRecOn with
  | nil => exact fun _ _ => List.not_mem_nil
  | append_singleton bs a ih =>
    rw [← List.append_assoc] at hown hunder
    intro c i hd
    rw [doings_concat] at hd
    rcases List.mem_append.1 hd with hd | hd
    · exact ih hown.left hunder.left c i hd
    · split at hd
      · rename_i ha
        rw [← after_append] at ha hd
        obtain ⟨t, ht, htown, hd⟩ | heq | heq := deeds_of_concerns ha hd
        · have htc := h.isCancelled hown.left hunder.left hc ht htown
          exact (deedsOf_of_isCancelled htc hd).1 i rfl
        · cases heq
        · cases heq
      · cases hd

/-- A chain whose family executes nothing any more acts on what it has executed before. -/
theorem IsNew.follows (h : e.IsNew) (hown : e.IsHereditary own (as ++ bs))
    (hidle : ∀ c i, (c, .executed i) ∉ (e.after as).doings own bs) {t : Task}
    (ht : t ∈ (e.after (as ++ bs)).tasks) (htown : own t.number = true) {o : Origin} {plan : Plan}
    {below : List Frame} (hframes : t.frames = .driving o c (.acting plan) :: below) :
    plan.Follows (e.doings own as) ((e.after as).doings own bs) c := by
  have hstrand : ⟨o, c, .acting plan⟩ ∈ (Member.task t).strands := by
    show _ ∈ t.frames.filterMap Frame.strand?
    rw [hframes]
    exact List.mem_cons_self
  obtain ⟨T, hT, hsame, ⟨p₀, p, T₀, i, r, heq, htrail, hround⟩, -⟩ :=
    h.remembers hown _ (task_mem_members ht) htown _ hstrand
  rw [doings_append] at hT
  obtain ⟨L, L', rfl, hL, hL'⟩ := List.sublist_append_iff.1 hT
  refine ⟨L, L', hL, hL', hsame, ?_⟩
  -- What the chain has executed, it has executed before.
  have hbefore : ∀ j, .executed j ∈ (L ++ L').map Prod.snd → .executed j ∈ L.map Prod.snd := by
    intro j hj
    rw [List.map_append] at hj
    rcases List.mem_append.1 hj with hj | hj
    · exact hj
    · obtain ⟨⟨c', d'⟩, hd', rfl⟩ := List.mem_map.1 hj
      exact absurd (hL'.subset hd') (hidle c' j)
  rw [heq] at hbefore ⊢
  cases hround with
  | acting hr hplan =>
    refine .outcome (hbefore i ?_) ?_ hplan ⟨_, rfl⟩
    · exact List.mem_append_right _ List.mem_cons_self
    · exact List.mem_append_right _ (List.mem_cons_of_mem _ List.mem_cons_self)
  | ending hi hplan =>
    cases htrail with
    | start => exact .behind (List.mem_append_left _ List.mem_cons_self) hi ⟨_, hplan⟩
    | round htrail hr hplan' hnext =>
      refine .passed (hbefore _ ?_) ?_ hplan' hnext hi ⟨_, hplan⟩
      · exact List.mem_append_left _ (List.mem_append_right _ List.mem_cons_self)
      · exact List.mem_append_left _
          (List.mem_append_right _ (List.mem_cons_of_mem _ List.mem_cons_self))

/-- After a moment, a family does nothing any more but what follows from what it did before. -/
structure Ceases (e : Engine) (own : Nat → Bool) (as bs : List Act) : Prop where
  /-- No step starts to execute. -/
  idle : ∀ c i, (c, .executed i) ∉ (e.after as).doings own bs
  /-- A step that waits at the moment is aborted, together with those that wait for nested runs
  below it, and no position is changed by it. -/
  aborted : ∀ t ∈ (e.after as).tasks, own t.number = true → t.parked = true →
    (∃ o c stage, .driving o c stage ∈ t.frames) →
      ∀ before a after, bs = before ++ a :: after → a = .advance t.number ∨ a = .cut t.number →
        (∀ c d, (c, d) ∈ (e.after (as ++ before)).deeds a → d = .lost ∨ d = .halted .cancelled) ∧
          ((e.after (as ++ before)).act a).position = (e.after (as ++ before)).position
  /-- What is done to the outside follows from an outcome of a step that was executed before the
  moment, or the chain started behind its last step. -/
  spent : ∀ before a after, bs = before ++ a :: after →
    (e.after (as ++ before)).concerns own a = true →
      ∀ c d, (c, d) ∈ (e.after (as ++ before)).deeds a → d.isEffect = true →
        ∃ plan : Plan, plan.Attempts c d ∧
          plan.Follows (e.doings own as) ((e.after as).doings own before) c

theorem IsNew.ceases_of_isUnder (h : e.IsNew) (hown : e.IsHereditary own (as ++ bs))
    (hunder : e.IsUnder own τ (as ++ bs)) (hc : (e.after as).isCancelled τ = true) :
    e.Ceases own as bs where
  idle := h.idle hown hunder hc
  aborted := by
    rintro t ht htown hp ⟨o, c, stage, hframe⟩ before a after rfl ha
    have hsound := (h.sound .any).after_any as
    have hdoomed := (hsound.tasks t ht).isDoomed hp (h.isWaiting as ht hp) hframe
    have htc : (e.after as).isCancelled t.token = true := by
      have hcancelled : (e.after (as ++ [])).isCancelled t.token = true :=
        h.isCancelled (by simpa using hown.left) (by simpa using hunder.left) hc
          (by simpa using ht) htown
      simpa using hcancelled
    have hgives : (e.after as).GivesUp t.number := by
      intro t' ht' hnumber
      obtain rfl : t' = t := List.inj_on_of_nodup_map hsound.numbers ht' ht hnumber
      exact ⟨hdoomed, htc⟩
    have hlater := hgives.after hsound (hsound.lt_next t ht) before
    rw [← after_append] at hlater
    exact hlater.deeds ha
  spent := by
    rintro before a after rfl ha c d hd heffect
    rw [← List.append_assoc] at hown hunder
    obtain ⟨t, ht, htown, hd⟩ | rfl | rfl := deeds_of_concerns ha hd
    · have htc := h.isCancelled hown.left hunder.left hc ht htown
      obtain ⟨o, plan, below, hframes, hattempts⟩ := (deedsOf_of_isCancelled htc hd).2 heffect
      have hidle := h.idle hown.left hunder.left hc
      exact ⟨plan, hattempts, h.follows hown.left hidle ht htown hframes⟩
    · cases heffect
    · cases heffect

/-- The family of a run is started under the token of the run. -/
theorem IsNew.isUnder_family (h : e.IsNew) {before after : List Act} {f : Frame}
    (hrun : as = before ++ a :: after) (ha : a.opening? = some (τ, f)) :
    e.IsUnder (e.family (· == (e.after before).next) as) τ as := by
  have hsound := h.sound .any
  intro before' a' after' token f' heq ha' hown
  rw [heq, hsound.family_of_opening h.isMarked _ ha'] at hown
  -- The only task of the family that is started from outside is the one of the run.
  rw [hrun] at heq
  obtain rfl := hsound.opening_unique heq ha ha' (beq_iff_eq.1 hown).symm
  obtain rfl : a = a' := (List.cons.inj (List.append_cancel_left heq)).1
  rw [ha] at ha'
  cases ha'
  exact Token.isWithin_self τ

/-- **A cancelled token stops all that descends from a run.** From the moment at which the token of
a run is cancelled, no step starts to execute in its family, a step that waits is aborted, and what
is still done follows from what the family executed before; or a chain completes that has started
behind its last step. -/
theorem IsNew.ceases (h : e.IsNew) {before after : List Act} {f : Frame}
    (hrun : as ++ bs = before ++ a :: after) (ha : a.opening? = some (τ, f))
    (hc : (e.after as).isCancelled τ = true) :
    e.Ceases (e.family (· == (e.after before).next) (as ++ bs)) as bs :=
  h.ceases_of_isUnder ((h.sound .any).isHereditary_family h.isMarked _ _)
    (h.isUnder_family hrun ha) hc

end Engine

namespace SelfCancelling

/-- A workflow whose first step cancels the run. -/
def definition : Definition :=
  ⟨"withdrawal", [.code fun c => .cancel (.finish c .proceed), .deciding fun _ => .proceed]⟩

def registry : Registry := ⟨.put .empty "withdrawal" definition⟩

/-- A run up to the moment at which its step cancels it. -/
def acts : List Act :=
  [.addRunner registry .empty,
    .run ⟨0⟩ (.root 0) { workflow := "withdrawal", inst := some "x" }] ++ .replicate 3 (.advance 2)

/-- The step that cancels its run returns, and its outcome is saved; the next step does not start. -/
theorem ceased :
    (Greeting.engine.after acts).isCancelled (.root 0) = true ∧
      Greeting.engine.Ceases (Greeting.engine.family (· == 2) (acts ++ .replicate 5 (.advance 2)))
        acts (.replicate 5 (.advance 2)) ∧
      ((Greeting.engine.after acts).doings
        (Greeting.engine.family (· == 2) (acts ++ .replicate 5 (.advance 2)))
        (.replicate 5 (.advance 2))).map Prod.snd =
          [.returned 0 .proceed, .saved 1, .halted .cancelled] := by
  have hcancelled : (Greeting.engine.after acts).isCancelled (.root 0) = true := by decide +kernel
  have hnew : Greeting.engine.IsNew := ⟨rfl, rfl, rfl, rfl⟩
  have hrun : acts ++ .replicate 5 (.advance 2) = [.addRunner registry .empty] ++
      .run ⟨0⟩ (.root 0) { workflow := "withdrawal", inst := some "x" } ::
        .replicate 8 (.advance 2) := rfl
  exact ⟨hcancelled, hnew.ceases hrun rfl hcancelled, rfl⟩

end SelfCancelling

namespace NoSteps

/-- A workflow without steps. -/
def registry : Registry := ⟨.put .empty "formality" ⟨"formality", []⟩⟩

/-- A run under a token that has been cancelled before. -/
def acts : List Act :=
  [.addRunner registry .empty, .cancel (.root 0),
    .run ⟨0⟩ (.root 0) { workflow := "formality", inst := some "x" }] ++ .replicate 5 (.advance 2)

/-- **A chain that starts behind its last step completes all the same.** Its token was cancelled
before it started, and it has executed nothing. -/
theorem completes_cancelled :
    (Greeting.engine.after (acts.take 2)).isCancelled (.root 0) = true ∧
      ∃ result, (Greeting.engine.chronicle acts).map Prod.snd =
        [.started 0, .passed none, .published ⟨"x", "formality", .completed⟩,
          .settled (.ok result), .stopped result] ∧ result.status = .completed := by
  exact ⟨by decide +kernel, _, rfl, rfl⟩

end NoSteps

end DurableFlow
