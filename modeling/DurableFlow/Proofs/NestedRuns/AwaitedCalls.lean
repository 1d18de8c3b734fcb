import DurableFlow.Proofs.Runs.RunsToEnds

/-!
# Calls that a step waits for

A step that launches a nested run waits until the call for it is over. For as long as somebody may
still tell the call, its frame stands right above that of the step (`Task.Awaits`); then the step
goes on with what the call was told. Nothing but a cancellation or a cut comes between
(`Engine.Sound.awaits_act`, and `Engine.Sound.awaits_after` for a whole history). A task that can
move does so before nothing moves any more (`Engine.Sound.exists_advance`).

Main statement: a step whose call has been told returns what it makes of that
(`Engine.Spell.returns`).
-/

namespace DurableFlow

/-- A frame that waits for the one above it has launched a request. -/
def Frame.IsLaunched : Frame → Prop
  | .driving _ c (.calling i next) =>
    ∃ context r q, c.definition.Within i c.context (.launch context r q next)
  | _ => True

/-- The task has a call that is told by the completion, right above a frame. -/
def Task.Awaits (t : Task) (k : CompletionId) (f : Frame) (below : List Frame) : Prop :=
  ∃ above g, t.frames = above ++ g :: f :: below ∧ g.receiver? = some k

namespace Engine

/-- The task of that number is about to go on with these frames. -/
def IsDoing (e : Engine) (n : Nat) (frames : List Frame) : Prop :=
  ∃ t ∈ e.tasks, t.number = n ∧ t.parked = false ∧ t.frames = frames

variable {S : Standard} {e m : Engine} {t : Task} {a : Act} {as bs : List Act} {o : Origin}
  {P : Chain} {i : Nat} {next : Reply → Behaviour} {below above : List Frame} {f g : Frame}
  {k : CompletionId} {ds : List (Chain × Deed)} {rested : Option (Timer Continuation)}
  {frames : List Frame} {n : Nat}

/-! ## Tasks -/

theorem Alters.mem_task {M N : Multiset Member} (h : m.Alters a ds N M) (ht : .task t ∈ N)
    (hadvance : a ≠ .advance t.number) (hcut : a ≠ .cut t.number) : .task t ∈ M := by
  cases h with
  | keep _ => exact ht
  | start _ _ => exact Multiset.mem_cons_of_mem ht
  | turn _ _ =>
    rcases Multiset.mem_cons.1 ht with heq | ht
    · cases heq
      exact absurd rfl hadvance
    · exact Multiset.mem_add.2 (.inr ht)
  | drop _ =>
    rcases Multiset.mem_cons.1 ht with heq | ht
    · cases heq
    · exact ht
  | cut =>
    rcases Multiset.mem_cons.1 ht with heq | ht
    · cases heq
      exact absurd rfl hcut
    · exact ht

/-- A task that is neither taken on nor cut off stays as it is. -/
theorem Sound.mem_tasks_act (h : m.Sound S) (ht : t ∈ m.tasks) (hadvance : a ≠ .advance t.number)
    (hcut : a ≠ .cut t.number) : t ∈ (m.act a).tasks := by
  obtain ⟨M, R, woken, hpassage⟩ := h.passage a
  have hM := hpassage.alters.mem_task (task_mem_members ht) hadvance hcut
  rw [hpassage.resting] at hM
  refine mem_tasks_of_members ?_
  rw [hpassage.members]
  rcases Multiset.mem_add.1 hM with htimer | hR
  · obtain ⟨x, -, heq⟩ := Member.mem_timers.1 htimer
    cases heq
  · exact Multiset.mem_add.2 (.inr hR)

/-- A task that waits for nothing is taken on before nothing moves any more, unless it is cut
off. -/
theorem Sound.exists_advance (h : m.Sound .any) (hdoing : m.IsDoing n frames)
    (hrest : (m.after bs).IsAtRest)
    (hcut : ∀ b₁ b₂, bs = b₁ ++ .cut n :: b₂ → ¬ (m.after b₁).IsDoing n frames) :
    ∃ b₁ b₂, bs = b₁ ++ .advance n :: b₂ ∧ ∀ b, b <+: b₁ → (m.after b).IsDoing n frames := by
  induction bs generalizing m with
  | nil =>
    obtain ⟨t, ht, -, hp, -⟩ := hdoing
    have hcan := hrest t ht
    simp [canMove, hp] at hcan
  | cons a bs ih =>
    by_cases hadvance : a = .advance n
    · refine ⟨[], bs, by rw [hadvance]; rfl, fun b hb => ?_⟩
      rw [List.prefix_nil.1 hb]
      exact hdoing
    · have ha : a ≠ .cut n := by
        rintro rfl
        exact hcut [] bs rfl hdoing
      have hstays : (m.act a).IsDoing n frames := by
        obtain ⟨t, ht, rfl, hp, rfl⟩ := hdoing
        exact ⟨t, h.mem_tasks_act ht hadvance ha, rfl, hp, rfl⟩
      obtain ⟨b₁, b₂, rfl, hall⟩ := ih (h.act a.meets_any).1 hstays hrest fun b₁ b₂ hbs =>
        hcut (a :: b₁) b₂ (by rw [hbs]; rfl)
      refine ⟨a :: b₁, b₂, rfl, fun b hb => ?_⟩
      cases b with
      | nil => exact hdoing
      | cons a' b =>
        obtain ⟨rfl, hprefix⟩ := List.cons_prefix_cons.1 hb
        exact hall b hprefix

/-! ## What steps wait for -/

/-- A turn leaves frames behind that have launched what they wait for. -/
theorem Turns.isLaunched (h : m.Turns t ds rested frames) (ht : t.Sound S)
    (hlaunched : ∀ f ∈ t.frames, f.IsLaunched) : ∀ f ∈ frames, f.IsLaunched := by
  have rest : ∀ {f : Frame} {below : List Frame}, t.frames = f :: below →
      ∀ f' ∈ below, f'.IsLaunched := fun hframes f' hf' =>
    hlaunched f' (hframes ▸ List.mem_cons_of_mem _ hf')
  have resumed : ∀ {f : Frame} {below : List Frame} (reply : Reply), t.frames = f :: below →
      ∀ f' ∈ Frame.resumed reply below, f'.IsLaunched := by
    intro f below reply hframes f' hf'
    unfold Frame.resumed at hf'
    split at hf'
    · rcases List.mem_cons.1 hf' with rfl | hf'
      · trivial
      · exact rest hframes f' (List.mem_cons_of_mem _ hf')
    · cases hf'
  have departed : ∀ {f : Frame} {below : List Frame} (o : Origin) (reply : Reply),
      t.frames = f :: below → ∀ f' ∈ Frame.departed o reply below, f'.IsLaunched := by
    intro f below o reply hframes f' hf'
    unfold Frame.departed at hf'
    split at hf'
    · rcases List.mem_cons.1 hf' with rfl | hf'
      · trivial
      · exact rest hframes f' hf'
    · exact resumed reply hframes f' hf'
  cases h with
  | look _ => exact hlaunched
  | abandon _ _ _ _ => exact List.forall_mem_singleton.2 trivial
  | decline hframes => exact resumed _ hframes
  | start hframes _ _ => exact List.forall_mem_cons.2 ⟨trivial, rest hframes⟩
  | stay hframes _ => exact List.forall_mem_cons.2 ⟨trivial, rest hframes⟩
  | @launch o c i context r q next below hframes =>
    have hwithin : c.definition.Within i c.context (.launch context r q next) :=
      (ht.frames (.driving o c (.inside i (.launch context r q next)))
        (hframes ▸ List.mem_cons_self)).2
    exact List.forall_mem_cons.2
      ⟨trivial, List.forall_mem_cons.2 ⟨⟨_, _, _, hwithin⟩, rest hframes⟩⟩
  | @go o c stage below d p p' c' stage' hframes hstage _ _ _ =>
    refine List.forall_mem_cons.2 ⟨?_, rest hframes⟩
    cases stage' with
    | calling i next => exact absurd rfl (hstage i next)
    | _ => trivial
  | rest hframes => exact departed _ _ hframes
  | stop hframes => exact departed _ _ hframes
  | halt hframes => exact resumed _ hframes
  | panic hframes => exact resumed _ hframes
  | receive hframes => exact resumed _ hframes

theorem Alters.isLaunched {M N : Multiset Member} (h : m.Alters a ds N M)
    (hsound : ∀ t, .task t ∈ N → t.Sound S)
    (hN : ∀ t, .task t ∈ N → ∀ f ∈ t.frames, f.IsLaunched) :
    ∀ t, .task t ∈ M → ∀ f ∈ t.frames, f.IsLaunched := by
  intro t' ht'
  cases h.comes _ ht' with
  | keep ht' => exact hN t' ht'
  | left ht _ h hleft =>
    have hturn := h.turns.isLaunched (hsound _ ht) (hN _ ht)
    rw [hleft] at hturn
    exact hturn
  | start ha _ =>
    refine List.forall_mem_singleton.2 ?_
    cases a <;> cases ha <;> trivial

/-- **Whatever waits for a frame above has launched a request.** -/
theorem IsNew.isLaunched (h : e.IsNew) (as : List Act) :
    ∀ t ∈ (e.after as).tasks, ∀ f ∈ t.frames, f.IsLaunched := by
  induction as using List.reverseRecOn with
  | nil => simp [h.tasks]
  | append_singleton as a ih =>
    have hsound : (e.after as).Sound .any := (h.sound .any).after_any as
    obtain ⟨M, R, woken, hpassage⟩ := hsound.passage a
    have hM := hpassage.alters.isLaunched (fun t ht => hsound.tasks t (mem_tasks_of_members ht))
      fun t ht => ih t (mem_tasks_of_members ht)
    intro t ht
    rw [after_concat] at ht
    obtain ⟨x, -, heq⟩ | hR := hpassage.mem_cases (task_mem_members ht)
    · cases heq
      exact List.forall_mem_singleton.2 trivial
    · exact hM t (hpassage.mem_of_mem_rest hR)

/-! ## Waiting for a call -/

/-- The end of a call above another one leaves that one where it is. -/
theorem awaits_resumed (reply : Reply)
    (hcalling : ∀ f' ∈ above ++ g :: f :: below, f'.isCalling = true) (hg : g.receiver? = some k) :
    ∃ above' g', Frame.resumed reply (above ++ g :: f :: below) = above' ++ g' :: f :: below ∧
      g'.receiver? = some k := by
  have calling : ∀ {f' : Frame}, f'.isCalling = true →
      ∃ o c i next, f' = .driving o c (.calling i next) := by
    intro f' hf'
    cases f' with
    | driving o c stage =>
      cases stage with
      | calling i next => exact ⟨o, c, i, next, rfl⟩
      | _ => cases hf'
    | _ => cases hf'
  cases above with
  | nil =>
    obtain ⟨o, c, i, next, rfl⟩ := calling (hcalling g List.mem_cons_self)
    exact ⟨[], _, rfl, hg⟩
  | cons f' above =>
    obtain ⟨o, c, i, next, rfl⟩ := calling (hcalling f' List.mem_cons_self)
    exact ⟨.driving o c (.inside i (next reply)) :: above, g, rfl, hg⟩

/-- A turn with something above the call leaves the call where it is. -/
theorem Turns.awaits (h : m.Turns t ds rested frames) (ht : t.Sound S) (hp : t.parked = false)
    {f' : Frame} (hframes : t.frames = f' :: above ++ g :: f :: below)
    (hg : g.receiver? = some k) :
    ∃ above' g', frames = above' ++ g' :: f :: below ∧ g'.receiver? = some k := by
  have hcalling := calling_of_sound ht hframes
  have same : ∀ {f'' : Frame} {below' : List Frame}, t.frames = f'' :: below' →
      below' = above ++ g :: f :: below := by
    intro f'' below' h'
    rw [hframes] at h'
    exact (List.cons.inj h').2.symm
  have resumed : ∀ {f'' : Frame} {below' : List Frame} (reply : Reply), t.frames = f'' :: below' →
      ∃ above' g', Frame.resumed reply below' = above' ++ g' :: f :: below ∧
        g'.receiver? = some k := by
    intro f'' below' reply h'
    rw [same h']
    exact awaits_resumed reply hcalling hg
  have departed : ∀ {f'' : Frame} {below' : List Frame} (o : Origin) (reply : Reply),
      t.frames = f'' :: below' → ∃ above' g',
        Frame.departed o reply below' = above' ++ g' :: f :: below ∧ g'.receiver? = some k := by
    intro f'' below' o reply h'
    unfold Frame.departed
    split
    · exact ⟨.receiving _ _ :: above, g, by rw [same h']; rfl, hg⟩
    · exact resumed reply h'
  cases h with
  | look _ => exact ⟨_, g, hframes, hg⟩
  | abandon _ _ hparked _ => cases hp.symm.trans hparked
  | decline h' => exact resumed _ h'
  | start h' _ _ => exact ⟨_ :: above, g, by rw [same h']; rfl, hg⟩
  | stay h' _ => exact ⟨_ :: above, g, by rw [same h']; rfl, hg⟩
  | launch h' => exact ⟨_ :: _ :: above, g, by rw [same h']; rfl, hg⟩
  | go h' _ _ _ _ => exact ⟨_ :: above, g, by rw [same h']; rfl, hg⟩
  | rest h' => exact departed _ _ h'
  | stop h' => exact departed _ _ h'
  | halt h' => exact resumed _ h'
  | panic h' => exact resumed _ h'
  | receive h' => exact resumed _ h'

/-- A turn of a call's own chain leaves the call where it is, unless the chain is halted or panics. -/
theorem Turns.awaits_chain (h : m.Turns t ds rested frames) (hp : t.parked = false) {r : RunnerId}
    {c : Chain} {stage : Stage}
    (hframes : t.frames = .driving (.call r (some k)) c stage :: f :: below)
    (hhalting : ∀ fault, stage ≠ .halting fault)
    (hpanic : ∀ j context payload, stage ≠ .inside j (.panic context payload)) :
    ∃ above' g', frames = above' ++ g' :: f :: below ∧ g'.receiver? = some k := by
  cases h with
  | look _ => exact ⟨[], _, hframes, rfl⟩
  | abandon _ _ hparked _ => cases hp.symm.trans hparked
  | decline h' => cases hframes.symm.trans h'
  | start h' _ _ => cases hframes.symm.trans h'
  | stay h' _ => cases hframes.symm.trans h'; exact ⟨[], _, rfl, rfl⟩
  | launch h' => cases hframes.symm.trans h'; exact ⟨[_], _, rfl, rfl⟩
  | go h' _ _ _ _ => cases hframes.symm.trans h'; exact ⟨[], _, rfl, rfl⟩
  | rest h' => cases hframes.symm.trans h'; exact ⟨[], _, rfl, rfl⟩
  | stop h' => cases hframes.symm.trans h'; exact ⟨[], _, rfl, rfl⟩
  | halt h' =>
    cases hframes.symm.trans h'
    exact absurd rfl (hhalting _)
  | panic h' =>
    cases hframes.symm.trans h'
    exact absurd rfl (hpanic _ _ _)
  | receive h' => cases hframes.symm.trans h'

/-- If every turn of a task leaves a call where it is, then so does its next move. -/
theorem awaits_move (ht : t.Sound S)
    (hturns : ∀ {ds rested frames}, m.Turns t ds rested frames →
      ∃ above' g', frames = above' ++ g' :: f :: below ∧ g'.receiver? = some k) :
    m.move t = .blocked ∨ ∃ m' t', m.move t = .on m' t' ∧ t'.Awaits k f below := by
  have hturned := turned_move (e := m) ht
  cases hmove : m.move t with
  | blocked => exact .inl rfl
  | on m' t' =>
    rw [hmove] at hturned
    obtain ⟨rested, woken, -, hturn, -⟩ := hturned
    exact .inr ⟨m', t', rfl, hturns hturn⟩
  | «over» m' ending =>
    rw [hmove] at hturned
    obtain ⟨rested, woken, -, hturn⟩ := hturned
    obtain ⟨above', g', hnil, -⟩ := hturns hturn
    simp at hnil

/-- A call is told and its step goes on with that, or the task goes on above the step. -/
theorem call_cases (ht : t.Sound S) (hp : t.parked = false)
    (hframes : t.frames = g :: .driving o P (.calling i next) :: below)
    (hg : g.receiver? = some k) :
    (∃ reply m', (k, some reply) ∈ m.told t ∧
      m.move t = .on m' (t.doing (.driving o P (.inside i (next reply)) :: below))) ∨
    m.move t = .blocked ∨ ∃ m' t', m.move t = .on m' t' ∧
      t'.Awaits k (.driving o P (.calling i next)) below := by
  have hmove : m.move t = m.moveTop t := move_of_unparked hp
  cases g with
  | driving origin c stage =>
    obtain ⟨r, rfl⟩ : ∃ r, origin = .call r (some k) := by
      cases origin with
      | call r receiver =>
        cases hg
        exact ⟨r, rfl⟩
      | _ => cases hg
    -- The call is over if its chain is halted or panics, and goes on otherwise.
    cases stage with
    | halting fault =>
      refine .inl ⟨.settled ((m.settled.get? k).getD (.error (.fault fault))), m, ?_, ?_⟩
      · simp [told, hp, hframes]
      · rw [hmove]
        simp [moveTop, hframes, moveDriving, halt, answer]
    | inside j b =>
      cases b with
      | panic context payload =>
        refine .inl ⟨.panicked payload, m, ?_, ?_⟩
        · simp [told, hp, hframes]
        · rw [hmove]
          simp [moveTop, hframes, moveDriving, moveInside, tearDown, answer]
      | _ => exact .inr (awaits_move ht fun h => h.awaits_chain hp hframes (by simp) (by simp))
    | _ => exact .inr (awaits_move ht fun h => h.awaits_chain hp hframes (by simp) (by simp))
  | receiving r k' =>
    obtain rfl : k' = k := Option.some.inj hg
    cases hs : m.settled.get? k' with
    | some s =>
      refine .inl ⟨.settled s, m, ?_, ?_⟩
      · simp [told, hp, hframes, hs]
      · rw [hmove]
        simp [moveTop, hframes, hs, answer]
    | none =>
      cases howed : m.isOwed k' with
      | true =>
        refine .inr (.inr ⟨m, { t with parked := true }, ?_, ⟨[], _, hframes, rfl⟩⟩)
        rw [hmove]
        simp [moveTop, hframes, hs, howed, park]
      | false =>
        refine .inl ⟨.settled (.error (.fault .cancelled)), m, ?_, ?_⟩
        · simp [told, hp, hframes, hs, howed]
        · rw [hmove]
          simp [moveTop, hframes, hs, howed, refuse, answer]
  | _ => cases hg

/-- What comes of an act for a task that waits for a call: it goes on waiting, or the call is told
and the step goes on with that; unless the step is cut off, or given up. -/
inductive Fares (m : Engine) (a : Act) (n : Nat) (k : CompletionId) (o : Origin) (P : Chain)
    (i : Nat) (next : Reply → Behaviour) (below : List Frame) : Prop
  | waits {t : Task} (ht : t ∈ (m.act a).tasks) (hn : t.number = n)
      (h : t.Awaits k (.driving o P (.calling i next)) below)
  | told {reply : Reply} (ha : a = .advance n) (hreply : (k, some reply) ∈ m.replies a)
      (h : (m.act a).IsDoing n (.driving o P (.inside i (next reply)) :: below))
  | lost (h : (P, .lost) ∈ m.deeds a)
  | abandoned (h : (m.act a).IsDoing n [.driving o P (.halting .cancelled)])

/-- A task that goes on waiting, or cannot move, fares no worse. -/
theorem Sound.fares_of_move (h : m.Sound .any) (ht : t ∈ m.tasks)
    (hk : t.Awaits k (.driving o P (.calling i next)) below)
    (hmove : m.move t = .blocked ∨ ∃ m' t', m.move t = .on m' t' ∧
      t'.Awaits k (.driving o P (.calling i next)) below) :
    m.Fares (.advance t.number) t.number k o P i next below := by
  obtain hblocked | ⟨m', t', hon, hawaits⟩ := hmove
  · have hact : m.act (.advance t.number) = m :=
      Engine.act_advance_blocked (h.task?_of_mem ht) hblocked
    exact .waits (hact.symm ▸ ht) rfl hk
  · obtain ⟨hnumber, hmem⟩ := h.mem_tasks_advance ht hon
    exact .waits hmem hnumber hawaits

/-- Where a task is given up, the step that waits for a call is given up, or is cut off with what is
above the outermost step. -/
theorem Sound.fares_of_giveUp (h : m.Sound .any) (ht : t ∈ m.tasks)
    (hframes : t.frames = above ++ g :: .driving o P (.calling i next) :: below)
    {fs : List Frame} {o' : Origin} {c : Chain} {stage : Stage}
    (hfs : t.frames = fs ++ [.driving o' c stage])
    (hmove : m.move t = .on m
      { t with parked := false, frames := [.driving o' c (.halting .cancelled)] })
    (hdeeds : m.deedsOf t = losses fs) :
    m.Fares (.advance t.number) t.number k o P i next below := by
  obtain ⟨hnumber, hmem⟩ := h.mem_tasks_advance ht hmove
  rcases List.eq_nil_or_concat below with rfl | ⟨below', f', rfl⟩
  · have hlast : fs ++ [.driving o' c stage] =
        (above ++ [g]) ++ [.driving o P (.calling i next)] := by
      rw [← hfs, hframes, List.append_assoc]
      rfl
    obtain ⟨-, heq⟩ := List.append_inj' hlast rfl
    cases heq
    exact .abandoned ⟨_, hmem, hnumber, rfl, rfl⟩
  · have hlast : fs ++ [.driving o' c stage] =
        (above ++ g :: .driving o P (.calling i next) :: below') ++ [f'] := by
      rw [← hfs, hframes, List.append_assoc, List.concat_eq_append]
      rfl
    have hdeeds : m.deeds (.advance t.number) = losses fs := by
      simp only [deeds, h.task?_of_mem ht, hdeeds]
    obtain ⟨rfl, -⟩ := List.append_inj' hlast rfl
    refine .lost ?_
    rw [hdeeds, losses, List.filterMap_append]
    refine List.mem_map_of_mem (List.mem_append_right _ ?_)
    exact List.mem_filterMap.2 ⟨.driving o P (.calling i next), by simp, rfl⟩

/-- **A task that waits for a call goes on waiting, or with what the call is told**, unless its step
is cut off or given up. -/
theorem Sound.awaits_act (h : m.Sound .any) (ht : t ∈ m.tasks)
    (hk : t.Awaits k (.driving o P (.calling i next)) below) (a : Act) :
    m.Fares a t.number k o P i next below := by
  obtain ⟨above, g, hframes, hg⟩ := id hk
  by_cases hcut : a = .cut t.number
  · refine .lost ?_
    simp only [hcut, deeds, h.task?_of_mem ht, hframes, losses, List.filterMap_append]
    refine List.mem_map_of_mem (List.mem_append_right _ ?_)
    exact List.mem_filterMap.2 ⟨.driving o P (.calling i next), by simp, rfl⟩
  by_cases hadvance : a = .advance t.number
  case neg => exact .waits (h.mem_tasks_act ht hadvance hcut) rfl hk
  subst hadvance
  cases hp : t.parked with
  | true =>
    have hlooks := m.looks_move hp
    generalize hmove : m.move t = μ, hdeeds : m.deedsOf t = ds, m.told t = ts at hlooks
    cases hlooks with
    | giveUp _ hfs _ => exact h.fares_of_giveUp ht hframes hfs hmove hdeeds
    | takeUp _ => exact h.fares_of_move ht hk (.inr ⟨m, _, hmove, above, g, hframes, hg⟩)
    | wait _ => exact h.fares_of_move ht hk (.inl hmove)
  | false =>
    cases above with
    | nil =>
      obtain ⟨reply, m', htold, hmove⟩ | hmove :=
        call_cases (m := m) (h.tasks t ht) hp hframes hg
      · obtain ⟨hnumber, hmem⟩ := h.mem_tasks_advance ht hmove
        have hreplies : m.replies (.advance t.number) = m.told t := by
          simp [replies, h.task?_of_mem ht]
        exact .told rfl (hreplies ▸ htold) ⟨_, hmem, hnumber, hp, rfl⟩
      · exact h.fares_of_move ht hk hmove
    | cons f' above =>
      have hsound := h.tasks t ht
      exact h.fares_of_move ht hk
        (awaits_move hsound fun hturns => hturns.awaits hsound hp hframes hg)

/-- **Throughout a history, a task that waits for a call goes on waiting**, until the call is told
and the step goes on with that, or the step is cut off or given up. -/
theorem Sound.awaits_after (h : m.Sound .any) (ht : t ∈ m.tasks)
    (hk : t.Awaits k (.driving o P (.calling i next)) below) (bs : List Act) :
    (∃ t' ∈ (m.after bs).tasks, t'.number = t.number ∧
        t'.Awaits k (.driving o P (.calling i next)) below) ∨
      ∃ before a after, bs = before ++ a :: after ∧
        (∀ b, b <+: before → ∃ t' ∈ (m.after b).tasks,
          t'.Awaits k (.driving o P (.calling i next)) below) ∧
        ((∃ reply, (k, some reply) ∈ (m.after before).replies a ∧
            (m.after (before ++ [a])).IsDoing t.number
              (.driving o P (.inside i (next reply)) :: below)) ∨
          (P, .lost) ∈ (m.after before).deeds a ∨
            (m.after (before ++ [a])).IsDoing t.number [.driving o P (.halting .cancelled)]) := by
  induction bs generalizing m t with
  | nil => exact .inl ⟨t, ht, rfl, hk⟩
  | cons a bs ih =>
    have here : ∀ b, b <+: [] → ∃ t' ∈ (m.after b).tasks,
        t'.Awaits k (.driving o P (.calling i next)) below := by
      intro b hb
      rw [List.prefix_nil.1 hb]
      exact ⟨t, ht, hk⟩
    cases h.awaits_act ht hk a with
    | @waits t' ht' hnumber hk' =>
      obtain ⟨t'', ht'', hnumber', hk''⟩ | ⟨before, b, after, rfl, hall, hcase⟩ :=
        ih (h.act a.meets_any).1 ht' hk'
      · exact .inl ⟨t'', ht'', hnumber'.trans hnumber, hk''⟩
      · rw [hnumber] at hcase
        refine .inr ⟨a :: before, b, after, rfl, fun b' hb' => ?_, hcase⟩
        cases b' with
        | nil => exact ⟨t, ht, hk⟩
        | cons a' b' =>
          obtain ⟨rfl, hprefix⟩ := List.cons_prefix_cons.1 hb'
          exact hall b' hprefix
    | told ha hreply hdoing => exact .inr ⟨[], a, bs, rfl, here, .inl ⟨_, hreply, hdoing⟩⟩
    | lost hlost => exact .inr ⟨[], a, bs, rfl, here, .inr (.inl hlost)⟩
    | abandoned hdoing => exact .inr ⟨[], a, bs, rfl, here, .inr (.inr hdoing)⟩

/-- Where nothing moves, nobody waits for a call that can be told. -/
theorem IsNew.not_awaits_of_isAtRest (h : e.IsNew) (hrest : (e.after as).IsAtRest)
    (hover : (e.after as).isUnderway k = false) (ht : t ∈ (e.after as).tasks) :
    ¬ t.Awaits k f below := by
  rintro ⟨above, g, hframes, hg⟩
  obtain ⟨howed, hdriven⟩ := Bool.or_eq_false_iff.1 hover
  have hmem : g ∈ t.frames := by
    rw [hframes]
    exact List.mem_append_right _ List.mem_cons_self
  cases g with
  | driving origin c stage =>
    refine List.any_eq_false.1 hdriven t ht (List.any_eq_true.2 ⟨_, hmem, ?_⟩)
    exact beq_iff_eq.2 hg
  | receiving r k' =>
    obtain rfl : k' = k := Option.some.inj hg
    have hcalling := (((h.sound .any).after_any as).tasks t ht).calling
    cases above with
    | nil =>
      have hready : (e.after as).isReady t = true := by simp [isReady, hframes, howed]
      have hcan := hrest t ht
      simp [canMove, hready] at hcan
    | cons f' above =>
      rw [hframes] at hcalling
      cases hcalling (.receiving r k') (by simp)
  | _ => cases hg

theorem answers_prefix (e : Engine) (k : CompletionId) (as bs : List Act) :
    e.answers k as <+: e.answers k (as ++ bs) := by
  induction bs using List.reverseRecOn with
  | nil => simp
  | append_singleton bs a ih =>
    rw [← List.append_assoc, answers, answers, tellings_concat, Reply.to_append]
    exact ih.trans (List.prefix_append _ _)

/-- The chain of the instance is the one of which a frame is seen. -/
theorem Bears.eq_of_frame {x : String} {st : Option (Chain × Phase)} (h : e.Bears x st)
    (ht : t ∈ e.tasks) {c : Chain} {stage : Stage} (hft : .driving o c stage ∈ t.frames)
    (hx : c.inst = x) : st = some (c, stage.phase) := by
  have hstrand : (⟨o, c, stage.phase⟩ : Strand) ∈ e.account.strands :=
    Multiset.mem_add.2 (.inl (List.mem_filterMap.2
      ⟨_, List.mem_flatMap.2 ⟨t, ht, hft⟩, rfl⟩))
  have hpair : (c, stage.phase) ∈ pairsOf x e.account.pairs :=
    Multiset.mem_filter.2 ⟨Multiset.mem_map_of_mem Strand.pair hstrand, hx⟩
  rw [h] at hpair
  exact Option.mem_toList.1 hpair

/-- A task that is taken on goes on as its move says. -/
theorem Sound.isDoing_advance (h : m.Sound S) (ht : t ∈ m.tasks) {m' : Engine}
    (hmove : m.move t = .on m' (t.doing frames)) (hp : t.parked = false) :
    (m.act (.advance t.number)).IsDoing t.number frames := by
  obtain ⟨hnumber, hmem⟩ := h.mem_tasks_advance ht hmove
  exact ⟨_, hmem, hnumber, hp, rfl⟩

/-- A step that has come to its end returns. -/
theorem Sound.advance_finish (h : m.Sound .any) {c' : Context} {outcome : Outcome}
    (hdoing : m.IsDoing n (.driving o P (.inside i (.finish c' outcome)) :: below)) :
    m.deeds (.advance n) = [(P, .returned i outcome)] ∧
      ∃ stage, (m.act (.advance n)).IsDoing n (.driving o { P with context := c' } stage :: below) ∧
        ((∃ plan, Plan.ofOutcome P.definition c' i m.now outcome = .ok plan ∧
            stage = .acting plan) ∨
          ∃ fault, Plan.ofOutcome P.definition c' i m.now outcome = .error fault ∧
            stage = .halting fault) := by
  obtain ⟨t, ht, rfl, hp, hframes⟩ := hdoing
  refine ⟨by simp [deeds, h.task?_of_mem ht, deedsOf, hp, hframes, deed?], ?_⟩
  cases hplan : Plan.ofOutcome P.definition c' i m.now outcome with
  | ok plan =>
    have hmove : m.move t =
        .on m (t.doing (.driving o { P with context := c' } (.acting plan) :: below)) := by
      simp [move_driving hp hframes, moveDriving, moveInside, hplan]
    exact ⟨_, h.isDoing_advance ht hmove hp, .inl ⟨plan, rfl, rfl⟩⟩
  | error fault =>
    have hmove : m.move t =
        .on m (t.doing (.driving o { P with context := c' } (.halting fault) :: below)) := by
      simp [move_driving hp hframes, moveDriving, moveInside, hplan]
    exact ⟨_, h.isDoing_advance ht hmove hp, .inr ⟨fault, rfl, rfl⟩⟩

/-- A chain that is halted does that deed next. -/
theorem Sound.deeds_halting (h : m.Sound .any) {fault : Fault}
    (hdoing : m.IsDoing n (.driving o P (.halting fault) :: below)) :
    m.deeds (.advance n) = [(P, .halted fault)] := by
  obtain ⟨t, ht, rfl, hp, hframes⟩ := hdoing
  simp [deeds, h.task?_of_mem ht, deedsOf, hp, hframes, deed?]

/-- The chain is in the phase, in some task. -/
def IsAt (e : Engine) (P : Chain) (φ : Phase) : Prop :=
  ∃ t ∈ e.tasks, ∃ o stage, .driving o P stage ∈ t.frames ∧ stage.phase = φ

theorem IsDoing.isAt {stage : Stage} (h : m.IsDoing n frames)
    (hframe : .driving o P stage ∈ frames) : m.IsAt P stage.phase := by
  obtain ⟨t, ht, -, -, rfl⟩ := h
  exact ⟨t, ht, o, stage, hframe, rfl⟩

/-- A task that waits for a call is within the step. -/
theorem isAt_of_awaits (ht : t ∈ m.tasks)
    (hk : t.Awaits k (.driving o P (.calling i next)) below) : m.IsAt P (.within i) := by
  obtain ⟨above, g, hframes, -⟩ := hk
  exact ⟨t, ht, o, .calling i next, by simp [hframes], rfl⟩

/-- While a chain stays within a step, or before it, nothing is done for its instance. -/
theorem Course.silent {D : Definition} {x : String} {φ : Phase} (h : e.Course D x (as ++ bs))
    (hcalm : ∀ d ∈ (e.after as).saga x bs, d.2.isMishap = false) (hx : P.inst = x)
    (hφ : φ = .entering i ∨ φ = .within i)
    (hstays : ∀ b, b <+: bs → (e.after (as ++ b)).IsAt P φ) : (e.after as).saga x bs = [] := by
  have hbears : ∀ b, b <+: bs → (e.after (as ++ b)).Bears x (some (P, φ)) := by
    rintro b ⟨b', rfl⟩
    rw [← List.append_assoc] at h
    obtain ⟨st, -, hst⟩ := h.left.shifts
    obtain ⟨t, ht, o, stage, hframe, rfl⟩ := hstays b (List.prefix_append _ _)
    rwa [hst.eq_of_frame ht hframe hx] at hst
  clear hstays
  induction bs using List.reverseRecOn with
  | nil => rfl
  | append_singleton bs a ih =>
    rw [← List.append_assoc] at h
    rw [saga_concat, ← after_append] at hcalm ⊢
    have hbefore := ih h.left (fun d hd => hcalm d (List.mem_append_left _ hd))
      fun b hb => hbears b (hb.trans (List.prefix_append _ _))
    obtain ⟨st, hshifts, hst⟩ := h.shifts_act (hbears bs (List.prefix_append _ _))
    rw [List.append_assoc] at hst
    obtain rfl := hst.unique (hbears _ (List.prefix_refl _))
    have hlength : (Deed.about x ((e.after (as ++ bs)).deeds a)).length ≤ 1 := by
      refine length_about_le fun s hs hlost => ?_
      have hmishap := hcalm s (List.mem_append_right _ hs)
      rw [hlost] at hmishap
      cases hmishap
    rw [hbefore, hshifts.eq_nil_of_length_le hφ hlength]
    rfl

/-! ## Calm spells -/

/-- The rest of a history, in which nothing befalls the instance, and after which nothing moves. -/
structure Spell (e : Engine) (D : Definition) (x : String) (as bs : List Act) : Prop where
  course : e.Course D x (as ++ bs)
  rest : (e.after (as ++ bs)).IsAtRest
  calm : ∀ d ∈ (e.after as).saga x bs, d.2.isMishap = false

namespace Spell

variable {D : Definition} {x : String} {b₁ b₂ : List Act}

theorem later (h : e.Spell D x as (b₁ ++ b₂)) : e.Spell D x (as ++ b₁) b₂ where
  course := by
    rw [List.append_assoc]
    exact h.course
  rest := by
    rw [List.append_assoc]
    exact h.rest
  calm d hd := by
    refine h.calm d ?_
    rw [saga_append, ← after_append]
    exact List.mem_append_right _ hd

theorem sound (h : e.Spell D x as bs) : (e.after as).Sound .any :=
  (h.course.new.sound .any).after_any as

/-- While a chain stays within a step, or before it, nothing is done for its instance. -/
theorem silent {φ : Phase} (h : e.Spell D x as (b₁ ++ b₂)) (hx : P.inst = x)
    (hφ : φ = .entering i ∨ φ = .within i)
    (hstays : ∀ b, b <+: b₁ → (e.after (as ++ b)).IsAt P φ) : (e.after as).saga x b₁ = [] := by
  have hcourse := h.course
  rw [← List.append_assoc] at hcourse
  refine hcourse.left.silent (fun d hd => h.calm d ?_) hx hφ hstays
  exact ((e.after as).saga_mono x (List.prefix_append _ _)).subset hd

/-- A chain of the instance that is about to go on does so before nothing moves any more. -/
theorem exists_advance {stage : Stage} (h : e.Spell D x as bs) (hx : P.inst = x)
    (hdoing : (e.after as).IsDoing n (.driving o P stage :: below)) :
    ∃ b₁ b₂, bs = b₁ ++ .advance n :: b₂ ∧
      ∀ b, b <+: b₁ → (e.after (as ++ b)).IsDoing n (.driving o P stage :: below) := by
  -- A task that is cut off loses the chain.
  have hcut : ∀ b₁ b₂, bs = b₁ ++ .cut n :: b₂ →
      ¬ ((e.after as).after b₁).IsDoing n (.driving o P stage :: below) := by
    rintro b₁ b₂ rfl ⟨t, ht, rfl, -, hframes⟩
    have hlost : (P, Deed.lost) ∈ ((e.after as).after b₁).deeds (.cut t.number) := by
      simp only [deeds, (h.sound.after_any b₁).task?_of_mem ht]
      refine List.mem_map_of_mem (List.mem_filterMap.2 ⟨.driving o P stage, ?_, rfl⟩)
      simp [hframes]
    have hmem : (P, Deed.lost) ∈ (e.after as).saga x (b₁ ++ .cut t.number :: b₂) :=
      List.mem_filter.2 ⟨mem_chronicle hlost b₂, beq_iff_eq.2 hx⟩
    cases h.calm _ hmem
  have hrest := h.rest
  rw [after_append] at hrest
  obtain ⟨b₁, b₂, hbs, hstays⟩ := h.sound.exists_advance hdoing hrest hcut
  refine ⟨b₁, b₂, hbs, fun b hb => ?_⟩
  rw [after_append]
  exact hstays b hb

/-- No chain of the instance is stopped by a cancellation: it would be halted next. -/
theorem not_cancelled (h : e.Spell D x as bs) (hx : P.inst = x) :
    ¬ (e.after as).IsDoing n (.driving o P (.halting .cancelled) :: below) := by
  intro hdoing
  obtain ⟨b₁, b₂, rfl, hstays⟩ := h.exists_advance hx hdoing
  have hhalted := h.later.sound.deeds_halting (hstays b₁ (List.prefix_refl _))
  have hmem : (P, Deed.halted .cancelled) ∈ (e.after (as ++ b₁)).saga x (.advance n :: b₂) := by
    refine List.mem_filter.2 ⟨List.mem_append_left _ ?_, beq_iff_eq.2 hx⟩
    rw [hhalted]
    exact List.mem_singleton_self _
  cases h.later.calm _ hmem

/-- **A step whose call can be told goes on with what it is told**, and in the meantime nothing is
done for its instance. -/
theorem resumes (h : e.Spell D x as bs) (ht : t ∈ (e.after as).tasks)
    (hk : t.Awaits k (.driving o P (.calling i next)) below) (hx : P.inst = x)
    (hover : (e.after (as ++ bs)).isUnderway k = false) {v : Settlement}
    (hanswers : e.answers k (as ++ bs) = [none] ∨ e.answers k (as ++ bs) = [some (.settled v)]) :
    ∃ b₁ b₂, bs = b₁ ++ b₂ ∧ some (.settled v) ∈ e.answers k (as ++ b₁) ∧
      (e.after (as ++ b₁)).IsDoing t.number
        (.driving o P (.inside i (next (.settled v))) :: below) ∧ (e.after as).saga x b₁ = [] := by
  obtain ⟨t', ht', -, hk'⟩ | ⟨b₁, a, b₂, rfl, hall, hcase⟩ := h.sound.awaits_after ht hk bs
  · rw [← after_append] at ht'
    exact absurd hk' (h.course.new.not_awaits_of_isAtRest h.rest hover ht')
  rw [← after_append, ← after_append] at hcase
  rw [List.append_cons] at h hanswers ⊢
  obtain ⟨reply, hreply, hdoing⟩ | hlost | hdoing := hcase
  · have hmem : some reply ∈ e.answers k (as ++ (b₁ ++ [a])) := by
      rw [answers, ← List.append_assoc, tellings_concat, Reply.to_append]
      refine List.mem_append_right _ ?_
      exact List.mem_map.2 ⟨(k, some reply), List.mem_filter.2 ⟨hreply, by simp⟩, rfl⟩
    have hsettled : reply = .settled v := by
      have hprefix := (e.answers_prefix k (as ++ (b₁ ++ [a])) b₂).subset hmem
      rw [List.append_assoc] at hprefix
      obtain hnone | hsome := hanswers
      · rw [hnone] at hprefix
        simp at hprefix
      · rw [hsome] at hprefix
        exact Option.some.inj (List.mem_singleton.1 hprefix)
    subst hsettled
    refine ⟨b₁ ++ [a], b₂, rfl, hmem, hdoing, ?_⟩
    refine h.silent hx (.inr (Eq.refl (Phase.within i))) fun b hb => ?_
    obtain rfl | hb := List.prefix_concat_iff.1 hb
    · exact hdoing.isAt List.mem_cons_self
    · obtain ⟨t', ht', hk'⟩ := hall b hb
      rw [after_append]
      exact isAt_of_awaits ht' hk'
  · have hmem : (P, Deed.lost) ∈ (e.after as).saga x (b₁ ++ [a] ++ b₂) := by
      refine List.mem_filter.2 ⟨?_, beq_iff_eq.2 hx⟩
      rw [chronicle_append, chronicle_concat, ← after_append]
      exact List.mem_append_left _ (List.mem_append_right _ hlost)
    cases h.calm _ hmem
  · exact absurd hdoing (h.later.not_cancelled hx)

/-- **A step that has come to its end returns**, and its plan comes next. In the meantime nothing is
done for its instance. -/
theorem returns (h : e.Spell D x as bs) (hx : P.inst = x) {c' : Context} {outcome : Outcome}
    (hdoing : (e.after as).IsDoing n (.driving o P (.inside i (.finish c' outcome)) :: below)) :
    ∃ φ q st run, (e.after as).saga x bs = (P, .returned i outcome) :: run ∧
      Shifts D x (some ({ P with context := c' }, φ)) q run st
        ((e.after (as ++ bs)).position x) ∧ (e.after (as ++ bs)).Bears x st ∧
      ∃ now, (∃ plan, Plan.ofOutcome P.definition c' i now outcome = .ok plan ∧ φ = .acting plan) ∨
        ∃ fault, Plan.ofOutcome P.definition c' i now outcome = .error fault ∧
          φ = .halting fault := by
  obtain ⟨b₁, b₂, rfl, hstays⟩ := h.exists_advance hx hdoing
  have hsilent := h.silent hx (.inr (Eq.refl (Phase.within i))) fun b hb =>
    (hstays b hb).isAt List.mem_cons_self
  have hdoing' := hstays b₁ (List.prefix_refl _)
  obtain ⟨hdeeds, stage, hnext, hplan⟩ := h.later.sound.advance_finish hdoing'
  rw [← after_concat] at hnext
  have hcourse := h.course
  rw [List.append_cons, ← List.append_assoc, ← List.append_assoc] at hcourse
  obtain ⟨st, -, hst⟩ := hcourse.left.shifts
  obtain ⟨t, ht, -, -, hframes⟩ := hnext
  have hframe : .driving o { P with context := c' } stage ∈ t.frames := by
    rw [hframes]
    exact List.mem_cons_self
  -- The step belongs to a loyal definition, so that the context is still that of the instance.
  have hinst : ({ P with context := c' } : Chain).inst = x := by
    have hloyal : (e.after (as ++ b₁)).Sound .loyal :=
      (hcourse.new.sound .loyal).after hcourse.left.left.loyal
    obtain ⟨t', ht', -, -, hframes'⟩ := hdoing'
    obtain ⟨hdefinition, hwithin⟩ : P.definition.IsLoyal ∧
        P.definition.Within i P.context (.finish c' outcome) :=
      (hloyal.tasks t' ht').frames (.driving o P (.inside i (.finish c' outcome)))
        (hframes' ▸ List.mem_cons_self)
    exact (hdefinition.inst_eq hwithin).trans hx
  rw [hst.eq_of_frame ht hframe hinst] at hst
  obtain ⟨st', hshifts, hst'⟩ := hcourse.shifts_from hst
  have hreturned : (e.after (as ++ b₁)).saga x [.advance n] = [(P, .returned i outcome)] := by
    rw [saga, chronicle, hdeeds]
    simp [chronicle, Deed.about, hx]
  have hsplit : as ++ (b₁ ++ .advance n :: b₂) = as ++ b₁ ++ [.advance n] ++ b₂ := by simp
  refine ⟨stage.phase, _, st', _, ?_, hsplit ▸ hshifts, hsplit ▸ hst', (e.after (as ++ b₁)).now, ?_⟩
  · rw [saga_append, hsilent, List.nil_append, ← after_append,
      show Act.advance n :: b₂ = [.advance n] ++ b₂ from rfl, saga_append, hreturned,
      ← after_append]
    rfl
  · obtain ⟨plan, hplan, rfl⟩ | ⟨fault, hfault, rfl⟩ := hplan
    · exact .inl ⟨plan, hplan, rfl⟩
    · exact .inr ⟨fault, hfault, rfl⟩

end Spell

end Engine

end DurableFlow
