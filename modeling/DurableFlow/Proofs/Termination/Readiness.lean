import DurableFlow.Proofs.Cancellation.CancelledRuns
import DurableFlow.Proofs.NestedRuns.UnawaitedCalls
import DurableFlow.Proofs.Families.MemberNumbers
import DurableFlow.Proofs.Settlement.BrokenPromises

/-!
# Readiness of tasks

What a task has waited for does not come undone: a gate stays open, a token stays cancelled, what
was settled stays so, and nobody comes to owe an old completion again
(`Engine.Sound.isReady_act`). And tasks do not wait for one another in a circle, because the
completions of the inner frames of a task are younger than those of the outer ones
(`Engine.IsNew.isDated`): if every task of a family waits for a completion that is owed, there is
none (`Engine.IsNew.not_circular`).
-/

namespace DurableFlow

namespace Account

variable {S : Standard} {A B : Account} {ds : List (Chain × Deed)}
  {ts : List (CompletionId × Option Reply)} {k : CompletionId}

/-- Nobody owes a completion any more, and it is not one that is still to be made. -/
structure IsFree (A : Account) (k : CompletionId) : Prop where
  lt_next : k.number < A.next
  unowed : ∀ s ∈ A.strands, s.chain.completion ≠ some k

theorem isSome_settle {j : Option CompletionId} (h : (A.settled k).isSome) (v : Settlement) :
    (A.settle j v k).isSome := by
  cases j with
  | none => exact h
  | some j =>
    by_cases hk : k = j
    · rw [settle, hk, Function.update_self]
      rfl
    · rw [settle, Function.update_of_ne hk]
      exact h

theorem Step.isSome_settled (h : Step S A ds ts B) (hk : (A.settled k).isSome) :
    (B.settled k).isSome := by
  cases h with
  | settle => exact isSome_settle hk _
  | haltContinuation => exact isSome_settle hk _
  | _ => exact hk

theorem Step.isFree (h : Step S A ds ts B) (hk : A.IsFree k) : B.IsFree k := by
  refine ⟨Nat.lt_of_lt_of_le hk.lt_next h.next_le, ?_⟩
  have hunowed := hk.unowed
  -- A chain that goes on owes what it owed before, or nothing any more.
  have goes : ∀ {s s' : Strand} {R : Multiset Strand}, A.strands = s ::ₘ R →
      (s'.chain.completion = some k → s.chain.completion = some k) →
      ∀ s'' ∈ s' ::ₘ R, s''.chain.completion ≠ some k := by
    intro s s' R hA hs s'' hs''
    rw [hA] at hunowed
    rcases Multiset.mem_cons.1 hs'' with rfl | hs''
    · exact fun heq => hunowed s (Multiset.mem_cons_self _ _) (hs heq)
    · exact hunowed s'' (Multiset.mem_cons_of_mem hs'')
  have gone : ∀ {s : Strand} {R : Multiset Strand}, A.strands = s ::ₘ R →
      ∀ s'' ∈ R, s''.chain.completion ≠ some k :=
    fun hA s'' hs'' => hunowed s'' (hA ▸ Multiset.mem_cons_of_mem hs'')
  cases h with
  | go hA hd hgo hc hφ => exact goes hA hc.symm.trans
  | settle hA => exact goes hA nofun
  | suspend hA => exact goes hA id
  | stop hA => exact gone hA
  | haltCall hA => exact gone hA
  | haltContinuation hA => exact gone hA
  | panic hA => exact gone hA
  | lose hA => exact gone hA
  | drop hA => exact gone hA
  | _ => exact hunowed

theorem Passes.isSome_settled (h : Passes S A ds ts B) (hk : (A.settled k).isSome) :
    (B.settled k).isSome := by
  cases h with
  | start h => cases h; exact hk
  | steps h =>
    induction h with
    | refl => exact hk
    | tail _ hs ih => exact hs.isSome_settled ih

theorem Passes.isFree (h : Passes S A ds ts B) (hk : A.IsFree k) : B.IsFree k := by
  cases h with
  | start h =>
    cases h with
    | @start q r c i hq hd hi hc =>
      refine ⟨Nat.lt_succ_of_lt hk.lt_next, fun s hs => ?_⟩
      rcases Multiset.mem_cons.1 hs with rfl | hs
      · intro heq
        rcases hc with hnone | hsome
        · cases hnone.symm.trans heq
        · obtain rfl : ⟨A.next⟩ = k := Option.some.inj (hsome.symm.trans heq)
          exact absurd hk.lt_next (Nat.lt_irrefl _)
      · exact hk.unowed s hs
  | steps h =>
    induction h with
    | refl => exact hk
    | tail _ hs ih => exact hs.isFree ih

end Account

/-! ## Completions of the frames of a task -/

namespace Frame

/-- Inner frames have to do with younger completions than outer ones. -/
def AreStacked (frames : List Frame) : Prop :=
  frames.Pairwise fun f g => ∀ k ∈ f.completions, ∀ k' ∈ g.completions, k'.number < k.number

variable {f g : Frame} {below : List Frame} {o : Origin} {reply : Reply}

theorem AreStacked.replace (h : AreStacked (f :: below)) (hg : g.completions ⊆ f.completions) :
    AreStacked (g :: below) := by
  obtain ⟨htop, hbelow⟩ := List.pairwise_cons.1 h
  exact List.pairwise_cons.2 ⟨fun f' hf' k hk => htop f' hf' k (hg hk), hbelow⟩

theorem AreStacked.resumed (h : AreStacked below) (reply : Reply) :
    AreStacked (Frame.resumed reply below) := by
  unfold Frame.resumed
  split
  · exact h.replace (List.Subset.refl _)
  · exact List.Pairwise.nil

theorem AreStacked.departed {c : Chain} {stage : Stage}
    (h : AreStacked (.driving o c stage :: below)) (reply : Reply) :
    AreStacked (Frame.departed o reply below) := by
  unfold Frame.departed
  split
  · rename_i r k
    refine h.replace fun j hj => mem_completions_driving.2 (.inr ?_)
    obtain rfl : j = k := by simpa [completions, owed?, receiver?] using hj
    rfl
  · exact AreStacked.resumed (List.pairwise_cons.1 h).2 reply

end Frame

namespace Engine

variable {S : Standard} {e : Engine} {t u : Task} {a : Act} {as : List Act} {own : Nat → Bool}
  {ds : List (Chain × Deed)} {rested : Option (Timer Continuation)} {frames : List Frame}

theorem Turns.areStacked (h : e.Turns t ds rested frames) (ht : Frame.AreStacked t.frames)
    (hlt : ∀ k ∈ t.frames.flatMap Frame.completions, k.number < e.next) :
    Frame.AreStacked frames := by
  have below : ∀ {f : Frame} {below : List Frame}, t.frames = f :: below →
      Frame.AreStacked below := fun hf => (List.pairwise_cons.1 (hf ▸ ht)).2
  cases h with
  | look => exact ht
  | abandon => exact List.pairwise_singleton ..
  | decline hf => exact (below hf).resumed _
  | @start r q resuming rest id d inst c i hf hc =>
    refine List.pairwise_cons.2 ⟨?_, below hf⟩
    intro g hg k hk k' hk'
    -- A chain that starts gets a completion that is younger than all others.
    have hk : c.completion = some k := by
      simpa [Origin.receiver?] using Frame.mem_completions_driving.1 hk
    obtain rfl : k = ⟨e.next⟩ := by
      rcases hc with hnone | hsome
      · cases hnone.symm.trans hk
      · exact Option.some.inj (hk.symm.trans hsome)
    refine hlt k' ?_
    rw [hf]
    exact List.mem_flatMap.2 ⟨g, List.mem_cons_of_mem _ hg, hk'⟩
  | stay hf =>
    rw [hf] at ht
    exact ht.replace (List.Subset.refl _)
  | launch hf =>
    rw [hf] at ht
    exact List.pairwise_cons.2 ⟨fun g _ k hk => (by cases hk), ht.replace (List.Subset.refl _)⟩
  | go hf _ _ _ hgo =>
    rw [hf] at ht
    refine ht.replace fun k hk => Frame.mem_completions_driving.2 ?_
    exact (Frame.mem_completions_driving.1 hk).imp_left (hgo.completion_le k)
  | rest hf => exact (hf ▸ ht).departed _
  | stop hf => exact (hf ▸ ht).departed _
  | halt hf => exact (below hf).resumed _
  | panic hf => exact (below hf).resumed _
  | receive hf => exact (below hf).resumed _

end Engine

/-- The completions of a member have been made, the inner ones of a task after the outer ones. -/
structure Member.IsDated (next : Nat) (m : Member) : Prop where
  lt_next : ∀ k ∈ m.completions, k.number < next
  stacked : ∀ t, m = .task t → Frame.AreStacked t.frames

namespace Engine

variable {S : Standard} {e : Engine} {t u : Task} {a : Act} {as : List Act} {own : Nat → Bool}
  {m : Member}

theorem Stems.isDated (h : e.Stems a m) (hdated : ∀ m ∈ e.members, m.IsDated e.next)
    (hle : e.next ≤ (e.act a).next) : m.IsDated (e.act a).next := by
  induction h with
  | keep hm =>
    exact ⟨fun k hk => Nat.lt_of_lt_of_le ((hdated _ hm).lt_next k hk) hle, (hdated _ hm).stacked⟩
  | @left t rested left t' ht ha hyields ht' =>
    subst ha
    cases ht'
    obtain ⟨hlt, hstacked⟩ := hdated _ ht
    refine ⟨fun k hk => ?_, ?_⟩
    · rcases hyields.turns.completions.1 k hk with hold | ⟨rfl, c, i, -, hstarted⟩
      · exact Nat.lt_of_lt_of_le (hlt k hold) hle
      · exact next_lt_of_started hstarted
    · rintro _ ⟨⟩
      exact hyields.turns.areStacked (hstacked t rfl) hlt
  | @rested t rested left x ht ha hyields hx =>
    refine ⟨fun k hk => ?_, nofun⟩
    have hold := hyields.turns.completions.2 x hx k (Option.mem_toList.1 hk)
    exact Nat.lt_of_lt_of_le ((hdated _ ht).lt_next k hold) hle
  | start ha =>
    refine ⟨fun k hk => ?_, ?_⟩
    · cases a with
      | run => cases ha; cases hk
      | resume => cases ha; cases hk
      | _ => cases ha
    · rintro _ ⟨⟩
      exact List.pairwise_singleton ..
  | woken _ hn ih =>
    refine ⟨fun k hk => ih.lt_next k ?_, ?_⟩
    · simpa [Member.completions, Timer.task, Frame.completions, Frame.owed?, Frame.receiver?,
        Origin.receiver?] using hk
    · rintro _ ⟨⟩
      exact List.pairwise_singleton ..

/-- **The completions of inner frames are younger than those of outer ones.** -/
theorem IsNew.isDated (h : e.IsNew) (as : List Act) :
    ∀ m ∈ (e.after as).members, m.IsDated (e.after as).next := by
  induction as using List.reverseRecOn with
  | nil => exact fun m hm => absurd hm (h.not_mem_members m)
  | append_singleton as a ih =>
    have hsound : (e.after as).Sound .any := (h.sound .any).after_any as
    intro m hm
    rw [after_concat] at hm ⊢
    exact (hsound.stems a m hm).isDated ih (hsound.next_le a)

/-! ## Innermost frames -/

theorem handed_not_calling :
    Handed fun _ m => ∀ t, m = .task t → ∀ f ∈ t.frames.head?, f.isCalling = false where
  mono h _ := h
  left {e l t ds rested left} h ht t' ht' := by
    rintro _ ⟨⟩ f hf
    cases ht'
    have hturns := h.turns
    have hframes : f ∈ ((some t').elim [] Task.frames).head? := hf
    have resumed : ∀ {reply below}, f ∈ (Frame.resumed reply below).head? →
        f.isCalling = false := by
      intro reply below hf
      unfold Frame.resumed at hf
      split at hf
      · cases hf
        rfl
      · cases hf
    have departed : ∀ {o reply below}, f ∈ (Frame.departed o reply below).head? →
        f.isCalling = false := by
      intro o reply below hf
      unfold Frame.departed at hf
      split at hf
      · cases hf
        rfl
      · exact resumed hf
    generalize (some t').elim [] Task.frames = frames at hturns hframes
    cases hturns with
    | look => exact ht t rfl f hframes
    | abandon => cases hframes; rfl
    | decline => exact resumed hframes
    | start => cases hframes; rfl
    | stay => cases hframes; rfl
    | launch => cases hframes; rfl
    | @go o c stage below d p p' c' stage' hf hstage =>
      cases hframes
      cases stage' with
      | calling i next => exact absurd rfl (hstage i next)
      | _ => rfl
    | rest => exact departed hframes
    | stop => exact departed hframes
    | halt => exact resumed hframes
    | panic => exact resumed hframes
    | receive => exact resumed hframes
  rested _ _ _ _ := nofun
  woken _ _ := by
    rintro _ ⟨⟩ f hf
    cases hf
    rfl

/-- The innermost frame of a task does not wait for another one. -/
theorem IsNew.not_calling (h : e.IsNew) (as : List Act) (ht : t ∈ (e.after as).tasks) :
    ∀ f ∈ t.frames.head?, f.isCalling = false := by
  refine handed_not_calling.after h (isHereditary_all e as) ?_ _ (task_mem_members ht) rfl t rfl
  rintro before a after token f - ha - _ ⟨⟩ f hf
  cases hf
  cases a with
  | run => cases ha; rfl
  | resume => cases ha; rfl
  | _ => cases ha

/-! ## Tasks have frames -/

variable {S : Standard} {e m : Engine} {t u : Task} {a : Act} {as : List Act} {own : Nat → Bool}

/-- A task has something to do. -/
theorem IsNew.frames_ne_nil (h : e.IsNew) (as : List Act) :
    ∀ t ∈ (e.after as).tasks, t.frames ≠ [] := by
  induction as using List.reverseRecOn with
  | nil =>
    intro t ht
    rw [after_nil, h.tasks] at ht
    cases ht
  | append_singleton as a ih =>
    have hsound : (e.after as).Sound .any := (h.sound .any).after_any as
    rw [after_concat]
    refine hsound.frames_act (P := fun fs => fs ≠ []) (fun _ _ _ => List.cons_ne_nil _ _)
      (fun _ _ => List.cons_ne_nil _ _) (fun t ht _ fs hfs => ?_) ih
    cases hfs with
    | abandon => exact List.cons_ne_nil _ _
    | look => exact ih t ht
    | go _ hbecomes => cases hbecomes <;> exact List.cons_ne_nil _ _
    | hand => exact List.cons_ne_nil _ _

/-! ## What stays as it has come -/

theorem isOwed_eq_false_iff {k : CompletionId} :
    e.isOwed k = false ↔ ∀ s ∈ e.account.strands, s.chain.completion ≠ some k := by
  refine ⟨completion_ne_of_not_isOwed, fun h => Bool.or_eq_false_iff.2 ⟨?_, ?_⟩⟩
  · refine List.any_eq_false.2 fun t ht howed => ?_
    obtain ⟨f, hf, howes⟩ := List.any_eq_true.1 howed
    cases f with
    | driving o c stage =>
      refine h ⟨o, c, stage.phase⟩ (Multiset.mem_add.2 (.inl (List.mem_filterMap.2 ?_)))
        (beq_iff_eq.1 howes)
      exact ⟨_, List.mem_flatMap.2 ⟨t, ht, hf⟩, rfl⟩
    | _ => cases beq_iff_eq.1 howes
  · refine List.any_eq_false.2 fun r hr howes => ?_
    obtain ⟨x, hx, rfl⟩ := List.mem_map.1 hr
    exact h x.strand (Multiset.mem_add.2 (.inr (List.mem_map_of_mem hx))) (beq_iff_eq.1 howes)

/-- Nobody comes to owe an old completion. -/
theorem Sound.isOwed_act (h : e.Sound .any) (a : Act) {k : CompletionId} (hlt : k.number < e.next)
    (hk : e.isOwed k = false) : (e.act a).isOwed k = false := by
  obtain ⟨-, hpasses⟩ := h.act a.meets_any
  exact isOwed_eq_false_iff.2 (hpasses.isFree ⟨hlt, isOwed_eq_false_iff.1 hk⟩).unowed

theorem Sound.isSignalled_act (h : e.Sound S) (a : Act) {τ : Token} {s : Signal}
    (hs : e.isSignalled τ s = true) : (e.act a).isSignalled τ s = true := by
  cases s with
  | gate name =>
    have hopen : name ∈ e.gates := List.contains_iff_mem.1 hs
    exact List.contains_iff_mem.2 ((h.retains a).gates.subset hopen)
  | cancellation => exact isCancelled_mono (h.retains a).cancelled hs

/-- **What a task waits for does not come undone.** -/
theorem Sound.isReady_act (h : e.Sound .any) (a : Act) (ht : t.Sound S)
    (hlt : ∀ k ∈ (Member.task t).completions, k.number < e.next) (hframes : u.frames = t.frames)
    (htoken : u.token = t.token) (hready : e.isReady t = true) : (e.act a).isReady u = true := by
  unfold isReady at hready ⊢
  rw [hframes]
  split at hready
  · rename_i hf
    rw [htoken]
    exact h.isSignalled_act a hready
  · rename_i r k below hf
    have hk : k.number < e.next := by
      refine hlt k ?_
      rw [Member.completions, hf]
      exact List.mem_append_left _ List.mem_cons_self
    rcases Bool.or_eq_true_iff.1 hready with hsettled | hunowed
    · obtain ⟨-, hpasses⟩ := h.act a.meets_any
      have hsome : ((e.act a).settled.get? k).isSome := hpasses.isSome_settled hsettled
      exact Bool.or_eq_true_iff.2 (.inl hsome)
    · have hnot : e.isOwed k = false := by simpa using hunowed
      refine Bool.or_eq_true_iff.2 (.inr ?_)
      rw [h.isOwed_act a hk hnot]
      rfl
  · rename_i k below hf
    exact (ht.frames (.listening k) (hf ▸ List.mem_cons_self)).elim
  · rfl

/-! ## Tasks that are ready -/

theorem ne_await (c : Context) (s : Signal) (b : Behaviour) : b ≠ .await c s b := by
  intro heq
  have hsize := congrArg sizeOf heq
  simp only [Behaviour.await.sizeOf_spec] at hsize
  omega

/-- A task whose wait is over goes on with something else, unless it is parked. -/
theorem move_of_ready (ht : t.Sound S) (hp : t.parked = false) (hwaiting : t.isWaiting = true)
    (hready : e.isReady t = true) :
    (∃ m u, e.move t = .on m u ∧ u.frames ≠ t.frames) ∨ ∃ m ending, e.move t = .over m ending := by
  have answered : ∀ {r k below reply}, t.frames = .receiving r k :: below →
      (∃ m u, e.answer t below reply = .on m u ∧ u.frames ≠ t.frames) ∨
        ∃ m ending, e.answer t below reply = .over m ending := by
    intro r k below reply hf
    unfold answer
    split
    · refine .inl ⟨_, _, rfl, ?_⟩
      rw [hf]
      exact fun heq => by cases (List.cons.inj heq).1
    · split <;> exact .inr ⟨_, _, rfl⟩
  rw [move, hp, if_neg Bool.false_ne_true]
  obtain ⟨r, k, below, hf⟩ | ⟨o, c, i, context, signal, rest, below, hf⟩ := ht.waits_cases hwaiting
  · simp only [moveTop, hf]
    cases hk : e.settled.get? k with
    | some v => exact hf ▸ answered hf
    | none =>
      have howed : e.isOwed k = false := by simpa [isReady, hf, Table.contains, hk] using hready
      simp only [howed, Bool.false_eq_true, if_false]
      exact hf ▸ answered hf
  · have hsignalled : e.isSignalled t.token signal = true := by simpa [isReady, hf] using hready
    simp only [moveTop, hf, moveDriving, moveInside, hsignalled, if_true]
    refine .inl ⟨_, _, rfl, fun heq => ?_⟩
    have heq : Frame.driving o c (.inside i rest) =
      .driving o c (.inside i (.await context signal rest)) := (List.cons.inj heq).1
    exact ne_await context signal rest (by simpa using heq)

/-- What is there of a task that has been taken on is what its move has left of it. -/
theorem Sound.move_of_mem (h : e.Sound S) (ht : t ∈ e.tasks)
    (hu : u ∈ (e.act (.advance t.number)).tasks) (hnumber : u.number = t.number) :
    e.move t = .blocked ∧ u = t ∨ ∃ m, e.move t = .on m u := by
  obtain hold | ⟨t', ht', ha, m, hmove⟩ | ⟨hle, -⟩ := h.task_of_act hu
  · obtain rfl : u = t := List.inj_on_of_nodup_map h.numbers hold ht hnumber
    obtain ⟨hmove, -⟩ | ⟨m, t', _, _, hmove, -⟩ | ⟨m, ending, _, _, hmove, -, -, hact⟩ :=
      h.advance_cases ht
    · exact .inl ⟨hmove, rfl⟩
    · obtain ⟨hsame, hmem⟩ := h.mem_tasks_advance ht hmove
      obtain rfl : u = t' :=
        List.inj_on_of_nodup_map (h.advance u.number).1.numbers hu hmem hsame.symm
      exact .inr ⟨m, hmove⟩
    · rw [hact] at hu
      exact absurd rfl (bne_iff_ne.1 (List.mem_filter.1 hu).2)
  · obtain rfl : t' = t :=
      List.inj_on_of_nodup_map h.numbers ht' ht (Act.advance.inj ha).symm
    exact .inr ⟨m, hmove⟩
  · have hlt := h.lt_next t ht
    omega

/-- **A task whose wait is over does not stay as it is**: it is unparked, or goes on. -/
theorem Sound.goes_on (h : e.Sound S) (ht : t ∈ e.tasks) (hwaiting : t.isWaiting = true)
    (hready : e.isReady t = true) (hu : u ∈ (e.act (.advance t.number)).tasks)
    (hnumber : u.number = t.number) :
    (t.parked = false → u.frames ≠ t.frames) ∧ (t.parked = true → u.parked = false) := by
  have hmoved := h.move_of_mem ht hu hnumber
  constructor
  · intro hp
    obtain ⟨m, t', hmove, hne⟩ | ⟨m, ending, hmove⟩ := move_of_ready (h.tasks t ht) hp hwaiting hready
    · obtain ⟨hblocked, -⟩ | ⟨m', hon⟩ := hmoved
      · cases hmove.symm.trans hblocked
      · cases hmove.symm.trans hon
        exact hne
    · obtain ⟨hblocked, -⟩ | ⟨m', hon⟩ := hmoved
      · cases hmove.symm.trans hblocked
      · cases hmove.symm.trans hon
  · intro hp
    have hlooks := e.looks_move hp
    generalize e.deedsOf t = ds, e.told t = ts at hlooks
    obtain ⟨hblocked, -⟩ | ⟨m', hon⟩ := hmoved
    · rw [hblocked] at hlooks
      cases hlooks with
      | wait hwaits => cases hready.symm.trans hwaits
    · rw [hon] at hlooks
      cases hlooks with
      | giveUp => rfl
      | takeUp => rfl

/-! ## Circles -/

/-- The completions that a member of a family owes or waits for are of the family. -/
theorem IsNew.own_of_completions (h : e.IsNew) (hown : e.IsHereditary own as) :
    ∀ m ∈ (e.after as).members, own m.number = true → ∀ k ∈ m.completions,
      own k.number = true := by
  induction as using List.reverseRecOn with
  | nil => exact fun m hm => absurd hm (h.not_mem_members m)
  | append_singleton as a ih =>
    have hsound : (e.after as).Sound .any := (h.sound .any).after_any as
    have hinherits := hown as a [] rfl
    rw [after_concat]
    refine hsound.hands_on ((h.sound .any).isMarked_after h.isMarked as) hinherits
      (ih hown.left) ?_ (fun token f ha _ k hk => ?_) fun x n _ hx k hk => hx k ?_
    · rintro t rested left rfl ht htown hyields
      obtain ⟨hleft, hrested⟩ := hyields.turns.completions
      refine ⟨?_, fun x hx k hk => ?_⟩
      · rintro t' rfl k hk
        rcases hleft k hk with hold | ⟨rfl, c, i, -, hstarted⟩
        · exact ih hown.left _ ht htown k hold
        · exact (hinherits.drawn t.number rfl (next_lt_of_started hstarted)).trans htown
      · exact ih hown.left _ ht htown k (hrested x hx k (Option.mem_toList.1 hk))
    · cases a with
      | run => cases ha; cases hk
      | resume => cases ha; cases hk
      | _ => cases ha
    · simpa [Member.completions, Timer.task, Frame.completions, Frame.owed?, Frame.receiver?,
        Origin.receiver?] using hk

/-- A member that has to do with a completion of a family belongs to the family. -/
theorem IsNew.own_number (h : e.IsNew) (hown : e.IsHereditary own as) {m : Member}
    {k : CompletionId} (hm : m ∈ (e.after as).members) (hk : k ∈ m.completions) (hkown : own k.number = true) :
    own m.number = true := by
  cases hmown : own m.number with
  | true => rfl
  | false =>
    have hnot := h.own_of_completions hown.not m hm (by rw [hmown]; rfl) k hk
    rw [hkown] at hnot
    cases hnot

/-- A member waits within a call for a completion that is owed. -/
def WaitsFor (e : Engine) (m : Member) (k : CompletionId) : Prop :=
  ∃ t r below, m = .task t ∧ t.frames = .receiving r k :: below ∧ e.isOwed k = true

/-- **The members of a family do not all wait for completions that are owed**, unless there are
none. -/
theorem IsNew.not_circular (h : e.IsNew) (hown : e.IsHereditary own as)
    (hawaits : ∀ m ∈ (e.after as).members, own m.number = true → ∃ k, (e.after as).WaitsFor m k) :
    ∀ m ∈ (e.after as).members, own m.number = false := by
  -- Whoever owes a completion waits for a younger one, and there are only so many.
  have younger : ∀ n k m, m ∈ (e.after as).members → own m.number = true →
      (e.after as).WaitsFor m k → (e.after as).next - k.number ≠ n := by
    intro n
    induction n using Nat.strong_induction_on with
    | _ n ih =>
      rintro k m hm hmown ⟨t, r, below, rfl, hframes, howed⟩ hn
      have hk : k ∈ (Member.task t).completions := by
        rw [Member.completions, hframes]
        exact List.mem_append_left _ List.mem_cons_self
      have hkown := h.own_of_completions hown _ hm hmown k hk
      rcases Bool.or_eq_true_iff.1 howed with htask | htimer
      · obtain ⟨t', ht', hany⟩ := List.any_eq_true.1 htask
        obtain ⟨f, hf, howes⟩ := List.any_eq_true.1 hany
        have howes : f.owed? = some k := beq_iff_eq.1 howes
        have hfk : k ∈ f.completions := List.mem_append_left _ (Option.mem_toList.2 howes)
        have hm' := task_mem_members ht'
        have hmown' := h.own_number hown hm' (List.mem_flatMap.2 ⟨f, hf, hfk⟩) hkown
        obtain ⟨k', hk'⟩ := hawaits _ hm' hmown'
        obtain ⟨_, r', below', ⟨⟩, hframes', -⟩ := id hk'
        have hdated := h.isDated as _ hm'
        have hlt' : k'.number < (e.after as).next := by
          refine hdated.lt_next k' ?_
          rw [Member.completions, hframes']
          exact List.mem_append_left _ List.mem_cons_self
        have hstacked := hdated.stacked t' rfl
        rw [hframes'] at hf hstacked
        have hlt : k.number < k'.number := by
          rcases List.mem_cons.1 hf with rfl | hf
          · cases howes
          · exact (List.pairwise_cons.1 hstacked).1 f hf k' List.mem_cons_self k hfk
        exact ih _ (by omega) k' _ hm' hmown' hk' rfl
      · obtain ⟨_, hresting, howes⟩ := List.any_eq_true.1 htimer
        obtain ⟨x, hx, rfl⟩ := List.mem_map.1 hresting
        have hxk : k ∈ (Member.timer x).completions :=
          Option.mem_toList.2 (beq_iff_eq.1 howes)
        have hm' := timer_mem_members hx
        obtain ⟨_, _, _, _, heq, -⟩ := hawaits _ hm' (h.own_number hown hm' hxk hkown)
        cases heq
  intro m hm
  cases hmown : own m.number with
  | false => rfl
  | true =>
    obtain ⟨k, hk⟩ := hawaits m hm hmown
    exact absurd rfl (younger _ k m hm hmown hk)

end Engine

end DurableFlow
