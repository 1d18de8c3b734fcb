import DurableFlow.Proofs.Cancellation.CancelledRuns
import DurableFlow.Proofs.Families.MemberNumbers

/-!
# Cancelled rests

What becomes of a chain whose token is cancelled while it rests. Either it is dropped, or a task goes
on with it all the same, notices that the token is cancelled before it executes a step, and gives up;
only behind the last step a task would not notice, so that there the timers have to heed the
cancellation.

Main statement: the family of such a chain does nothing but that (`Engine.IsFading.doings`).
-/

namespace DurableFlow

/-- A deed by which a chain gives up because of a cancellation, or is taken away. -/
def Deed.isFarewell : Deed → Bool
  | .dropped | .lost | .halted .cancelled => true
  | _ => false

/-- What is left of a chain whose token has been cancelled while it rested: it rests, a task goes on
with it, or the task has given up, or is over. -/
inductive Member.Fades (x : Timer Continuation) : Member → Prop
  | rests : Fades x (.timer x)
  | enters {n} (h : x.work.next < x.work.chain.definition.size) : Fades x (.task (x.task n))
  | halts {n} : Fades x
      (.task ⟨n, x.token, false, [.driving .continuation x.work.chain (.halting .cancelled)]⟩)
  | ended {n} : Fades x (.task ⟨n, x.token, false, []⟩)

namespace Engine

variable {S : Standard} {e : Engine} {x : Timer Continuation} {t : Task} {a : Act}
  {own : Nat → Bool} {ds : List (Chain × Deed)} {rested : Option (Timer Continuation)}
  {frames : List Frame} {as : List Act} {X : Timer Continuation → Prop}

/-- A task without frames does nothing. -/
theorem Turns.of_nil (h : e.Turns t ds rested frames) (ht : t.frames = []) :
    rested = none ∧ ds = [] ∧ frames = [] := by
  cases h with
  | look _ => exact ⟨rfl, rfl, ht⟩
  | @abandon fs o c stage hf _ _ _ => simp [ht] at hf
  | decline hf => cases ht.symm.trans hf
  | start hf => cases ht.symm.trans hf
  | stay hf => cases ht.symm.trans hf
  | launch hf => cases ht.symm.trans hf
  | go hf => cases ht.symm.trans hf
  | rest hf => cases ht.symm.trans hf
  | stop hf => cases ht.symm.trans hf
  | halt hf => cases ht.symm.trans hf
  | panic hf => cases ht.symm.trans hf
  | receive hf => cases ht.symm.trans hf

/-- A task that has given up its only chain is over by its next move. -/
theorem Turns.of_halting {o : Origin} {c : Chain} {fault : Fault}
    (h : e.Turns t ds rested frames) (hp : t.parked = false)
    (ht : t.frames = [.driving o c (.halting fault)]) :
    rested = none ∧ ds = [(c, .halted fault)] ∧ frames = [] := by
  cases h with
  | look hidle => simp [Task.isIdle, hp, ht, Frame.isWaiting, Frame.isCalling] at hidle
  | abandon _ _ hparked _ => cases hp.symm.trans hparked
  | decline hf => cases ht.symm.trans hf
  | start hf => cases ht.symm.trans hf
  | stay hf => cases ht.symm.trans hf
  | launch hf => cases ht.symm.trans hf
  | go hf _ _ _ hgo =>
    cases ht.symm.trans hf
    cases hgo
  | rest hf => cases ht.symm.trans hf
  | stop hf => cases ht.symm.trans hf
  | halt hf =>
    cases ht.symm.trans hf
    exact ⟨rfl, rfl, rfl⟩
  | panic hf => cases ht.symm.trans hf
  | receive hf => cases ht.symm.trans hf

/-- A task that is about to execute a step under a cancelled token gives up. -/
theorem Turns.of_entering {o : Origin} {c : Chain} {i : Nat} {below : List Frame}
    (h : e.Turns t ds rested frames) (hp : t.parked = false)
    (ht : t.frames = .driving o c (.entering i) :: below) (hi : i < c.definition.size)
    (hc : e.isCancelled t.token = true) :
    rested = none ∧ ds = [] ∧ frames = .driving o c (.halting .cancelled) :: below := by
  cases h with
  | look hidle => simp [Task.isIdle, hp, ht, Frame.isWaiting, Frame.isCalling] at hidle
  | abandon _ _ hparked _ => cases hp.symm.trans hparked
  | decline hf => cases ht.symm.trans hf
  | start hf => cases ht.symm.trans hf
  | stay hf => cases ht.symm.trans hf
  | launch hf => cases ht.symm.trans hf
  | @go o c stage below d p p' c' stage' hf _ hd _ hgo =>
    cases ht.symm.trans hf
    have hnone : e.deed? t.token c (.entering i) = none := by
      rw [deed?, if_neg (Nat.not_le.2 hi), if_pos hc]
    rw [← hd, hnone, Option.toList_none] at hgo
    have hgo : Goes p c (.entering i) [] p' c' stage'.phase := hgo
    generalize hphase : stage'.phase = φ at hgo
    cases hgo with
    | withdraw =>
      cases stage' with
      | halting fault =>
        cases hphase
        rw [← hd, hnone]
        exact ⟨rfl, rfl, rfl⟩
      | _ => cases hphase
  | rest hf => cases ht.symm.trans hf
  | stop hf => cases ht.symm.trans hf
  | halt hf => cases ht.symm.trans hf
  | panic hf => cases ht.symm.trans hf
  | receive hf => cases ht.symm.trans hf

/-- A task that fades lays no chain to rest. It gives up, and then it is over. -/
theorem Yields.fades {left : Option Task} (h : e.Yields t ds rested left) (ht : (Member.task t).Fades x)
    (hc : e.isCancelled x.token = true) :
    rested = none ∧ (∀ s ∈ ds, s.1 = x.work.chain ∧ s.2.isFarewell = true) ∧
      ∀ t' ∈ left, (Member.task t').Fades x := by
  -- Nothing that is left waits.
  have hleft : ∀ t' ∈ left, ∀ fs, left.elim [] Task.frames = fs →
      (fs.head?.any Frame.isWaiting) = false → t' = ⟨t.number, t.token, false, fs⟩ := by
    rintro ⟨n, τ, parked, fs'⟩ rfl fs rfl hwaits
    have hnumber : n = t.number := h.number _ rfl
    have htoken : τ = t.token := h.token _ rfl
    have hparked : parked = false := by
      rw [Bool.eq_false_iff]
      intro hp
      have hwaiting := h.waiting _ rfl hp
      cases hwaits.symm.trans hwaiting
    rw [hnumber, htoken, hparked]
    rfl
  cases ht with
  | enters hnext =>
    obtain ⟨hrested, hds, hframes⟩ := h.turns.of_entering rfl rfl hnext hc
    refine ⟨hrested, by simp [hds], fun t' ht' => ?_⟩
    rw [hleft t' ht' _ hframes rfl]
    exact .halts
  | halts =>
    obtain ⟨hrested, hds, hframes⟩ := h.turns.of_halting rfl rfl
    refine ⟨hrested, by simp [hds, Deed.isFarewell], fun t' ht' => ?_⟩
    rw [hleft t' ht' _ hframes rfl]
    exact .ended
  | ended =>
    obtain ⟨hrested, hds, hframes⟩ := h.turns.of_nil rfl
    refine ⟨hrested, by simp [hds], fun t' ht' => ?_⟩
    rw [hleft t' ht' _ hframes rfl]
    exact .ended

/-! ## Who does what -/

/-- A member has to do with a deed that is done by an act. -/
inductive Does (e : Engine) (a : Act) (s : Chain × Deed) : Member → Prop
  | turn {t : Task} {rested left} (ha : a = .advance t.number) (hs : s ∈ e.deeds a)
      (h : e.Yields t (e.deeds a) rested left) : Does e a s (.task t)
  | drop {x : Timer Continuation}
      (hs : s = (x.work.chain, if e.isCancelled x.token then .dropped else .lost)) :
      Does e a s (.timer x)
  | cut {t : Task} (hs : s ∈ losses t.frames) : Does e a s (.task t)

/-- **Whatever is done, a member has to do with it**, one of those that the act concerns. -/
theorem Sound.exists_does (h : e.Sound S) {s : Chain × Deed} (hs : s ∈ e.deeds a)
    (own : Nat → Bool) :
    ∃ m ∈ e.members, e.Does a s m ∧ e.concerns own a = own m.number := by
  obtain ⟨M, R, woken, hpassage⟩ := h.passage a
  have halters := hpassage.alters
  have hmembers : ∀ m ∈ e.members, m ∈ e.members := fun _ hm => hm
  have hdrop : ∀ place x, a = .drop place → e.scheduler.timers.armed[place]? = some x →
      s = (x.work.chain, if e.isCancelled x.token then .dropped else .lost) := by
    rintro place x rfl hx
    simpa [deeds, hx] using hs
  have hturn := @Does.turn e a s
  generalize hN : e.members = N at halters hmembers
  generalize hds : e.deeds a = ds at halters hs hturn
  cases halters with
  | keep => cases hs
  | start => cases hs
  | turn hyields => exact ⟨_, hmembers _ (Multiset.mem_cons_self _ _), hturn rfl hs hyields, rfl⟩
  | @drop place x d _ hx =>
    refine ⟨_, hmembers _ (Multiset.mem_cons_self _ _), .drop (hdrop place x rfl hx), ?_⟩
    simp [concerns, hx, Member.number]
  | cut => exact ⟨_, hmembers _ (Multiset.mem_cons_self _ _), .cut hs, rfl⟩

/-- What is done by a turn is done for a chain that the task has, unless it starts. -/
theorem Turns.mem_strands {s : Chain × Deed} (h : e.Turns t ds rested frames) (hs : s ∈ ds) :
    (∃ i, s.2 = .started i) ∨ ∃ r ∈ (Member.task t).strands, r.chain = s.1 := by
  have top : ∀ {o c stage below}, t.frames = .driving o c stage :: below →
      ∃ r ∈ (Member.task t).strands, r.chain = c := by
    intro o c stage below hf
    refine ⟨⟨o, c, stage.phase⟩, ?_, rfl⟩
    show _ ∈ t.frames.filterMap Frame.strand?
    rw [hf]
    exact List.mem_cons_self
  cases h with
  | look _ => cases hs
  | @abandon fs o c stage hf _ _ _ =>
    obtain ⟨c', hc', rfl⟩ := List.mem_map.1 hs
    obtain ⟨f, hmem, hchain⟩ := List.mem_filterMap.1 hc'
    cases f with
    | driving o' c'' stage' =>
      cases hchain
      refine .inr ⟨⟨o', c', stage'.phase⟩,
        List.mem_filterMap.2 ⟨.driving o' c' stage', ?_, rfl⟩, rfl⟩
      rw [hf]
      exact List.mem_append_left _ hmem
    | _ => cases hchain
  | decline _ => cases hs
  | start _ _ _ =>
    rw [List.mem_singleton.1 hs]
    exact .inl ⟨_, rfl⟩
  | stay _ _ => cases hs
  | launch _ => cases hs
  | go hf _ _ _ _ =>
    obtain ⟨d, -, rfl⟩ := Option.map_eq_some_iff.1 (Option.mem_toList.1 hs)
    exact .inr (top hf)
  | rest hf =>
    obtain rfl := List.mem_singleton.1 hs
    exact .inr (top hf)
  | stop hf =>
    obtain rfl := List.mem_singleton.1 hs
    exact .inr (top hf)
  | halt hf =>
    obtain rfl := List.mem_singleton.1 hs
    exact .inr (top hf)
  | panic hf =>
    obtain rfl := List.mem_singleton.1 hs
    exact .inr (top hf)
  | receive _ => cases hs

namespace Does

variable {s : Chain × Deed} {m : Member}

/-- What a member has to do with is done for a chain of it, unless the chain starts. -/
theorem mem_strands (h : e.Does a s m) :
    (∃ i, s.2 = .started i) ∨ ∃ r ∈ m.strands, r.chain = s.1 := by
  cases h with
  | turn _ hs hyields => exact hyields.turns.mem_strands hs
  | @drop x hs => exact .inr ⟨x.strand, List.mem_singleton_self _, by rw [hs]; rfl⟩
  | @cut t hs =>
    obtain ⟨c, hc, rfl⟩ := List.mem_map.1 hs
    obtain ⟨f, hmem, hchain⟩ := List.mem_filterMap.1 hc
    cases f with
    | driving o c' stage =>
      cases hchain
      exact .inr ⟨⟨o, c, stage.phase⟩, List.mem_filterMap.2 ⟨_, hmem, rfl⟩, rfl⟩
    | _ => cases hchain

/-- A member that fades bids farewell at most. -/
theorem isFarewell (h : e.Does a s m) (hm : m.Fades x) (hc : e.isCancelled x.token = true) :
    s.1 = x.work.chain ∧ s.2.isFarewell = true := by
  cases h with
  | turn _ hs hyields => exact (hyields.fades hm hc).2.1 s hs
  | drop hs =>
    cases hm
    rw [hs, if_pos hc]
    exact ⟨rfl, rfl⟩
  | cut hs =>
    obtain ⟨c, hmem, rfl⟩ := List.mem_map.1 hs
    refine ⟨?_, rfl⟩
    cases hm with
    | enters _ => simpa [Timer.task, Frame.chain?] using hmem
    | halts => simpa [Frame.chain?] using hmem
    | ended => cases hmem

end Does

/-! ## Histories -/

/-- No continuation goes off whose token has been cancelled. -/
def Heeds (e : Engine) (as : List Act) : Prop :=
  ∀ before a after, as = before ++ a :: after →
    ∀ t ∈ (e.after before).woken? a, (e.after before).isCancelled t.token = false

/-- **What fades goes on fading**, if nothing goes off behind the last step. -/
theorem Sound.fades_act (h : e.Sound S) (hmarked : e.IsMarked) (hinherits : e.Inherits own a)
    (hbefore : ∀ m ∈ e.members, own m.number = true → ∃ x, X x ∧ m.Fades x)
    (hc : ∀ x, X x → e.isCancelled x.token = true)
    (hopening : ∀ token f, a.opening? = some (token, f) → own e.next = false)
    (hheeds : ∀ x, X x → x.work.chain.definition.size ≤ x.work.next →
      ∀ t ∈ e.woken? a, e.isCancelled t.token = false) :
    ∀ m ∈ (e.act a).members, own m.number = true → ∃ x, X x ∧ m.Fades x := by
  refine h.hands_on hmarked hinherits hbefore ?_ ?_ ?_
  · intro t rested left _ ht htown hyields
    obtain ⟨x, hx, hfades⟩ := hbefore _ ht htown
    obtain ⟨rfl, -, hleft⟩ := hyields.fades hfades (hc x hx)
    exact ⟨fun t' ht' => ⟨x, hx, hleft t' ht'⟩, nofun⟩
  · intro token f ha hown
    cases (hopening token f ha).symm.trans hown
  · rintro y n hy ⟨x, hx, hfades⟩
    cases hfades
    refine ⟨y, hx, .enters (Nat.lt_of_not_le fun hle => ?_)⟩
    cases (hheeds y hx hle _ hy).symm.trans (hc y hx)

/-- Nothing is left of a family but chains whose tokens have been cancelled while they rested. -/
structure IsFading (X : Timer Continuation → Prop) (own : Nat → Bool) (e : Engine)
    (as : List Act) : Prop where
  sound : e.Sound .loyal
  loyal : ∀ a ∈ as, a.Meets .loyal
  marked : e.IsMarked
  hereditary : e.IsHereditary own as
  fades : ∀ m ∈ e.members, own m.number = true → ∃ x, X x ∧ m.Fades x
  cancelled : ∀ x, X x → e.isCancelled x.token = true
  /-- No task is started for the family. -/
  opening : ∀ before a after token f, as = before ++ a :: after →
    a.opening? = some (token, f) → own (e.after before).next = false
  /-- Behind the last step, no continuation goes off whose token has been cancelled. -/
  heeds : ∀ x, X x → x.work.chain.definition.size ≤ x.work.next → e.Heeds as

/-- **The family of chains that rest under cancelled tokens fades.** -/
theorem Sound.isFading (h : e.Sound .loyal) (has : ∀ a ∈ as, a.Meets .loyal) (hmarked : e.IsMarked)
    (hown : ∀ n, own n = true → n < e.next)
    (hrests : ∀ m ∈ e.members, own m.number = true → ∃ x, X x ∧ m = .timer x)
    (hc : ∀ x, X x → e.isCancelled x.token = true)
    (hheeds : ∀ x, X x → x.work.chain.definition.size ≤ x.work.next → e.Heeds as) :
    e.IsFading X (e.family own as) as where
  sound := h
  loyal := has
  marked := hmarked
  hereditary := h.to_any.isHereditary_family hmarked _ _
  fades m hm hmown := by
    rw [h.to_any.family_of_lt _ _ (hmarked m hm).number_lt] at hmown
    obtain ⟨x, hx, rfl⟩ := hrests m hm hmown
    exact ⟨x, hx, .rests⟩
  cancelled := hc
  opening := by
    rintro before a after token f rfl ha
    rw [h.to_any.family_of_opening hmarked _ ha, Bool.eq_false_iff]
    intro hnext
    exact Nat.lt_irrefl _ ((hown _ hnext).trans_le (h.to_any.next_le_after before))
  heeds := hheeds

namespace IsFading

variable {bs : List Act}

theorem act (h : e.IsFading X own (a :: as)) : (e.act a).IsFading X own as where
  sound := (h.sound.act (h.loyal a List.mem_cons_self)).1
  loyal b hb := h.loyal b (List.mem_cons_of_mem _ hb)
  marked := h.sound.isMarked_act h.marked a
  hereditary before b after heq := h.hereditary (a :: before) b after (heq ▸ rfl)
  fades := h.sound.fades_act h.marked (h.hereditary [] a as rfl) h.fades h.cancelled
    (h.opening [] a as · · rfl) fun x hx hle => h.heeds x hx hle [] a as rfl
  cancelled x hx := isCancelled_mono (h.sound.retains a).cancelled (h.cancelled x hx)
  opening before b after token f heq := h.opening (a :: before) b after token f (heq ▸ rfl)
  heeds x hx hle before b after heq := h.heeds x hx hle (a :: before) b after (heq ▸ rfl)

theorem after (h : e.IsFading X own (as ++ bs)) : (e.after as).IsFading X own bs := by
  induction as generalizing e with
  | nil => exact h
  | cons a as ih => exact ih h.act

theorem left (h : e.IsFading X own (as ++ bs)) : e.IsFading X own as where
  sound := h.sound
  loyal a ha := h.loyal a (List.mem_append_left _ ha)
  marked := h.marked
  hereditary := h.hereditary.left
  fades := h.fades
  cancelled := h.cancelled
  opening before a after token f heq := h.opening before a (after ++ bs) token f (by simp [heq])
  heeds x hx hle before a after heq := h.heeds x hx hle before a (after ++ bs) (by simp [heq])

/-- **The family does nothing but to give up.** -/
theorem doings (h : e.IsFading X own as) :
    ∀ s ∈ e.doings own as, ∃ x, X x ∧ s.1 = x.work.chain ∧ s.2.isFarewell = true := by
  induction as generalizing e with
  | nil => exact fun s hs => absurd hs List.not_mem_nil
  | cons a as ih =>
    intro s hs
    rcases List.mem_append.1 hs with hs | hs
    · split at hs
      · rename_i hconcerns
        obtain ⟨m, hm, hdoes, hown⟩ := h.sound.exists_does hs own
        obtain ⟨x, hx, hfades⟩ := h.fades m hm (hown.symm.trans hconcerns)
        exact ⟨x, hx, hdoes.isFarewell hfades (h.cancelled x hx)⟩
      · cases hs
    · exact ih h.act s hs

/-- **What holds of the strands of all others remains true of them**, if whatever a chain can do
hands it on, and if it holds of the chains that start. -/
theorem others (h : e.IsFading X own as) {P : Strand → Prop}
    (hothers : ∀ m ∈ e.members, own m.number = false → ∀ s ∈ m.strands, P s)
    (hgo : ∀ {o o' c φ p ds p' c' φ'}, c.definition.IsLoyal → P ⟨o, c, φ⟩ →
      Goes p c φ ds p' c' φ' → (∀ k, o'.receiver? = some k → o.receiver? = some k) →
        P ⟨o', c', φ'⟩)
    (hstart : ∀ before a after, as = before ++ a :: after →
      ∀ r c i, (c, .started i) ∈ (e.after before).deeds a →
        c.completion = none ∨ c.completion = some ⟨(e.after before).next⟩ →
          P ⟨.call r c.completion, c, .entering i⟩) :
    ∀ m ∈ (e.after as).members, own m.number = false → ∀ s ∈ m.strands, P s := by
  have hown : e.IsHereditary (fun n => !own n) as := by
    intro before a after heq
    have hinherits := h.hereditary before a after heq
    exact ⟨fun n ha hdrawn => congrArg _ (hinherits.drawn n ha hdrawn),
      fun t ht => congrArg _ (hinherits.woken t ht)⟩
  have hafter := h.sound.strands_after h.loyal h.marked hown (P := P)
    (fun m hm hmown => hothers m hm (by simpa using hmown)) hgo hstart
  exact fun m hm hmown => hafter m hm (by simpa using hmown)

/-- What is done for a chain that none of the others has is a start, or the family gives it up. -/
theorem deeds_cases (h : e.IsFading X own (a :: as)) {s : Chain × Deed} (hs : s ∈ e.deeds a)
    (hothers : ∀ m ∈ e.members, own m.number = false → ∀ r ∈ m.strands, r.chain ≠ s.1) :
    (∃ i, s.2 = .started i) ∨ s.2.isFarewell = true := by
  obtain ⟨m, hm, hdoes, -⟩ := h.sound.exists_does hs own
  cases hown : own m.number with
  | true =>
    obtain ⟨x, hx, hfades⟩ := h.fades m hm hown
    exact .inr (hdoes.isFarewell hfades (h.cancelled x hx)).2
  | false =>
    obtain hstarted | ⟨r, hr, hchain⟩ := hdoes.mem_strands
    · exact .inl hstarted
    · exact absurd hchain (hothers m hm hown r hr)

/-- Where nothing moves, nothing is left of the family but chains that rest. -/
theorem eq_timer (h : e.IsFading X own as) (hrest : ∀ t ∈ e.tasks, e.canMove t = false)
    {m : Member} (hm : m ∈ e.members) (hown : own m.number = true) : ∃ x, X x ∧ m = .timer x := by
  have hparked : ∀ {t : Task}, .task t ∈ e.members → t.parked = true := by
    intro t ht
    have hcan := hrest t (mem_tasks_of_members ht)
    simp only [canMove, Bool.or_eq_false_iff, Bool.not_eq_false'] at hcan
    exact hcan.1.1
  obtain ⟨x, hx, hfades⟩ := h.fades m hm hown
  cases hfades with
  | rests => exact ⟨x, hx, rfl⟩
  | enters _ => cases hparked hm
  | halts => cases hparked hm
  | ended => cases hparked hm

end IsFading

end Engine

end DurableFlow
