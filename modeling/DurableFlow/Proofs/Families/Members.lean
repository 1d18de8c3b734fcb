import DurableFlow.Proofs.Histories.Turns
import Mathlib.Algebra.Order.Group.Multiset
import Mathlib.Tactic.Abel

/-!
# Members of an engine

The members of an engine are its tasks and the chains that rest until a timer goes off. A chain that
is laid to rest by a task is a member under the number of its delay, and the task that goes on with
it is one again.

Main statements: an act changes one member and rouses one at most (`Engine.Sound.passage`), so that
a member stems from one that was there before or is started (`Engine.Sound.stems`), and a chain
rests under a token that ends with the number of its delay (`Engine.Passage.isMarked`). No act takes
back what has come about (`Engine.Sound.retains`).
-/

namespace DurableFlow

/-- A task, or a chain that rests until a timer goes off. -/
inductive Member
  | task (t : Task)
  | timer (x : Timer Continuation)

namespace Member

/-- The number of a task, or of the delay that a chain waits for. -/
def number : Member → Nat
  | task t => t.number
  | timer x => x.work.delay

/-- The token under which a member goes on. -/
def token : Member → Token
  | task t => t.token
  | timer x => x.token

/-- The strands of a member. -/
def strands : Member → List Strand
  | task t => t.frames.filterMap Frame.strand?
  | timer x => [x.strand]

/-- Some tasks as members. -/
def tasks (ts : List Task) : Multiset Member := (ts.map task : List Member)

/-- Some timers as members. -/
def timers (xs : List (Timer Continuation)) : Multiset Member := (xs.map timer : List Member)

@[simp] theorem tasks_nil : tasks [] = 0 := rfl

@[simp] theorem timers_nil : timers [] = 0 := rfl

@[simp] theorem tasks_cons (t : Task) (ts : List Task) : tasks (t :: ts) = task t ::ₘ tasks ts :=
  rfl

@[simp] theorem timers_cons (x : Timer Continuation) (xs : List (Timer Continuation)) :
    timers (x :: xs) = timer x ::ₘ timers xs := rfl

@[simp] theorem tasks_append (ts ts' : List Task) : tasks (ts ++ ts') = tasks ts + tasks ts' := by
  simp [tasks]

@[simp] theorem timers_append (xs ys : List (Timer Continuation)) :
    timers (xs ++ ys) = timers xs + timers ys := by
  simp [timers]

theorem mem_tasks {m : Member} {ts : List Task} : m ∈ tasks ts ↔ ∃ t ∈ ts, m = task t := by
  simp [tasks, eq_comm]

theorem mem_timers {m : Member} {xs : List (Timer Continuation)} :
    m ∈ timers xs ↔ ∃ x ∈ xs, m = timer x := by
  simp [timers, eq_comm]

theorem timers_perm {xs ys : List (Timer Continuation)} (h : xs.Perm ys) :
    timers xs = timers ys :=
  Multiset.coe_eq_coe.2 (h.map _)

end Member

/-- The token and the frame of the task that is started by an act. -/
def Act.opening? : Act → Option (Token × Frame)
  | .run runner token request => some (token, .opening runner request false)
  | .resume runner token workflow inst event =>
    some (token, .opening runner { workflow, inst := some inst, event := some event } true)
  | _ => none

namespace Engine

/-- The members of an engine. -/
def members (e : Engine) : Multiset Member :=
  Member.tasks e.tasks + Member.timers e.scheduler.timers.armed

/-- What is left of a task that takes a turn, and the continuation that is armed by it. -/
structure Yields (e : Engine) (t : Task) (ds : List (Chain × Deed))
    (rested : Option (Timer Continuation)) (left : Option Task) : Prop where
  turns : e.Turns t ds rested (left.elim [] Task.frames)
  number : ∀ t' ∈ left, t'.number = t.number
  token : ∀ t' ∈ left, t'.token = t.token
  waiting : ∀ t' ∈ left, t'.parked = true → t'.isWaiting = true

/-- How an act changes the members, but for a continuation that goes off. -/
inductive Alters (e : Engine) :
    Act → List (Chain × Deed) → Multiset Member → Multiset Member → Prop
  | keep {a M} (h : ∀ n t, a = .advance n → e.task? n = some t → t.isIdle = true) :
      Alters e a [] M M
  | turn {t ds rested left R} (h : e.Yields t ds rested left)
      (hdrawn : rested.isSome = true → e.next < (e.act (.advance t.number)).next) :
      Alters e (.advance t.number) ds (.task t ::ₘ R)
        (Member.tasks left.toList + Member.timers rested.toList + R)
  | start {a token f M} (ha : a.opening? = some (token, f)) (hdrawn : e.next < (e.act a).next) :
      Alters e a [] M (.task ⟨e.next, token, false, [f]⟩ ::ₘ M)
  | drop {place x d M} (hx : e.scheduler.timers.armed[place]? = some x) :
      Alters e (.drop place) [(x.work.chain, d)] (.timer x ::ₘ M) M
  | cut {t M} : Alters e (.cut t.number) (losses t.frames) (.task t ::ₘ M) M

variable {S : Standard} {e : Engine}

theorem Alters.keep_of_ne {a : Act} {M : Multiset Member} (h : ∀ n, a ≠ .advance n) :
    e.Alters a [] M M := .keep fun n _ ha => absurd ha (h n)

/-- What a member comes from that is there once an act has been done, but for a task that goes on
after a delay. -/
inductive Comes (e : Engine) (a : Act) (ds : List (Chain × Deed)) (N : Multiset Member) :
    Member → Prop
  | keep {m} (h : m ∈ N) : Comes e a ds N m
  | left {t rested left t'} (ht : .task t ∈ N) (ha : a = .advance t.number)
      (h : e.Yields t ds rested left) (ht' : t' ∈ left) : Comes e a ds N (.task t')
  | rested {t rested left x} (ht : .task t ∈ N) (ha : a = .advance t.number)
      (h : e.Yields t ds rested left) (hdrawn : e.next < (e.act a).next) (hx : x ∈ rested) :
      Comes e a ds N (.timer x)
  | start {token f} (ha : a.opening? = some (token, f)) (hdrawn : e.next < (e.act a).next) :
      Comes e a ds N (.task ⟨e.next, token, false, [f]⟩)

theorem Alters.comes {a : Act} {ds : List (Chain × Deed)} {N M : Multiset Member}
    (h : e.Alters a ds N M) : ∀ m ∈ M, e.Comes a ds N m := by
  intro m hm
  cases h with
  | keep => exact .keep hm
  | @turn t _ rested left R h hdrawn =>
    have ht : .task t ∈ Member.task t ::ₘ R := Multiset.mem_cons_self _ _
    rcases Multiset.mem_add.1 hm with hm | hm
    · rcases Multiset.mem_add.1 hm with hm | hm
      · obtain ⟨t', ht', rfl⟩ := Member.mem_tasks.1 hm
        exact .left ht rfl h (Option.mem_toList.1 ht')
      · obtain ⟨x, hx, rfl⟩ := Member.mem_timers.1 hm
        have hx := Option.mem_toList.1 hx
        exact .rested ht rfl h (hdrawn (Option.isSome_of_mem hx)) hx
    · exact .keep (Multiset.mem_cons_of_mem hm)
  | start ha hdrawn =>
    rcases Multiset.mem_cons.1 hm with rfl | hm
    · exact .start ha hdrawn
    · exact .keep hm
  | drop => exact .keep (Multiset.mem_cons_of_mem hm)
  | cut => exact .keep (Multiset.mem_cons_of_mem hm)

/-! ## Acts -/

theorem task_mem_members {t : Task} (ht : t ∈ e.tasks) : .task t ∈ e.members :=
  Multiset.mem_add.2 (.inl (Member.mem_tasks.2 ⟨t, ht, rfl⟩))

theorem timer_mem_members {x : Timer Continuation} (hx : x ∈ e.scheduler.timers.armed) :
    .timer x ∈ e.members :=
  Multiset.mem_add.2 (.inr (Member.mem_timers.2 ⟨x, hx, rfl⟩))

theorem mem_tasks_of_members {t : Task} (ht : .task t ∈ e.members) : t ∈ e.tasks := by
  rcases Multiset.mem_add.1 ht with ht | ht
  · obtain ⟨t', ht', heq⟩ := Member.mem_tasks.1 ht
    cases heq
    exact ht'
  · obtain ⟨x, -, heq⟩ := Member.mem_timers.1 ht
    cases heq

theorem mem_armed_of_members {x : Timer Continuation} (hx : .timer x ∈ e.members) :
    x ∈ e.scheduler.timers.armed := by
  rcases Multiset.mem_add.1 hx with hx | hx
  · obtain ⟨_, -, heq⟩ := Member.mem_tasks.1 hx
    cases heq
  · obtain ⟨y, hy, heq⟩ := Member.mem_timers.1 hx
    cases heq
    exact hy

theorem members_of_tasks {l r : List Task} {t : Task} (h : e.tasks = l ++ t :: r) :
    e.members = .task t ::ₘ
      (Member.tasks (l ++ r) + Member.timers e.scheduler.timers.armed) := by
  rw [members, h]
  simp only [Member.tasks_append, Member.tasks_cons, Multiset.add_cons, Multiset.cons_add]

/-- A task among others of other numbers is the one that is found under its number. -/
theorem Sound.exists_split (h : e.Sound S) {n : Nat} {t : Task} (ht : e.task? n = some t) :
    t.number = n ∧ ∃ l r, e.tasks = l ++ t :: r ∧ ∀ t' ∈ l ++ r, t'.number ≠ n := by
  obtain ⟨hmem, rfl⟩ := task?_eq_some ht
  obtain ⟨l, t', r, htasks, hnumber, hne, -⟩ := h.split (List.mem_map_of_mem hmem)
  rw [htasks, List.mem_append, List.mem_cons] at hmem
  obtain hl | rfl | hr := hmem
  · exact absurd rfl (hne t (List.mem_append_left _ hl))
  · exact ⟨rfl, l, r, htasks, hne⟩
  · exact absurd rfl (hne t (List.mem_append_right _ hr))

theorem Sound.task?_of_mem (h : e.Sound S) {t : Task} (ht : t ∈ e.tasks) :
    e.task? t.number = some t := by
  obtain ⟨t', ht'⟩ : ∃ t', e.task? t.number = some t' := by
    rw [← Option.isSome_iff_exists, task?, List.find?_isSome]
    exact ⟨t, ht, by simp⟩
  obtain ⟨hmem, hnumber⟩ := task?_eq_some ht'
  rw [ht', List.inj_on_of_nodup_map h.numbers hmem ht hnumber]

/-- A task is taken on by a move, and things stir as the move says. -/
theorem Sound.advance_cases (h : e.Sound S) {t : Task} (ht : t ∈ e.tasks) :
    e.move t = .blocked ∧ e.act (.advance t.number) = e ∨
    (∃ m t' rested woken, e.move t = .on m t' ∧ e.Stirs rested woken m ∧
      e.Turns t (e.deedsOf t) rested t'.frames ∧
        e.act (.advance t.number) = m.putTask t') ∨
    ∃ m ending rested woken, e.move t = .over m ending ∧ e.Stirs rested woken m ∧
      e.Turns t (e.deedsOf t) rested [] ∧
        e.act (.advance t.number) = m.endTask t.number ending := by
  cases hmove : e.move t with
  | blocked =>
    exact .inl ⟨rfl, Engine.act_advance_blocked (h.task?_of_mem ht) hmove⟩
  | on m t' =>
    obtain ⟨rested, woken, hstirs, hturns, -⟩ := turned_of_on (h.tasks t ht) hmove
    exact .inr (.inl ⟨m, t', rested, woken, rfl, hstirs, hturns,
      Engine.act_advance_on (h.task?_of_mem ht) hmove⟩)
  | «over» m ending =>
    obtain ⟨rested, woken, hstirs, hturns⟩ := turned_of_over (h.tasks t ht) hmove
    exact .inr (.inr ⟨m, ending, rested, woken, rfl, hstirs, hturns,
      Engine.act_advance_over (h.task?_of_mem ht) hmove⟩)

/-- A task that is taken on is there as its move has left it. -/
theorem Sound.mem_tasks_advance (h : e.Sound S) {t : Task} (ht : t ∈ e.tasks) {m : Engine}
    {t' : Task} (hmove : e.move t = .on m t') :
    t'.number = t.number ∧ t' ∈ (e.act (.advance t.number)).tasks := by
  obtain ⟨rested, woken, hstirs, -, hnumber, -⟩ := turned_of_on (h.tasks t ht) hmove
  refine ⟨hnumber, ?_⟩
  rw [Engine.act_advance_on (h.task?_of_mem ht) hmove]
  refine List.mem_map.2 ⟨t, ?_, by simp [hnumber]⟩
  rw [hstirs.tasks]
  exact List.mem_append_left _ ht

/-- A task that is put back takes the place that it had. -/
theorem tasks_putTask {l r : List Task} {t t' : Task} (h : e.tasks = l ++ t :: r)
    (hne : ∀ u ∈ l ++ r, u.number ≠ t.number) (hnumber : t'.number = t.number) :
    (e.putTask t').tasks = l ++ t' :: r := by
  have hmap : ∀ us : List Task, (∀ u ∈ us, u.number ≠ t.number) →
      us.map (fun u => if u.number == t'.number then t' else u) = us := by
    intro us hus
    refine (List.map_congr_left fun u hu => ?_).trans (List.map_id us)
    simp [hnumber, hus u hu]
  rw [Engine.putTask, h, List.map_append, List.map_cons,
    hmap l fun u hu => hne u (List.mem_append_left _ hu),
    hmap r fun u hu => hne u (List.mem_append_right _ hu)]
  simp [hnumber]

/-- The other tasks are those of other numbers. -/
theorem tasks_filter {l r : List Task} {t : Task} (h : e.tasks = l ++ t :: r)
    (hne : ∀ u ∈ l ++ r, u.number ≠ t.number) :
    e.tasks.filter (fun u => u.number != t.number) = l ++ r := by
  have hfilter : ∀ us : List Task, (∀ u ∈ us, u.number ≠ t.number) →
      us.filter (fun u => u.number != t.number) = us := fun us hus =>
    List.filter_eq_self.2 fun u hu => bne_iff_ne.2 (hus u hu)
  rw [h, List.filter_append, List.filter_cons_of_neg (by simp),
    hfilter l fun u hu => hne u (List.mem_append_left _ hu),
    hfilter r fun u hu => hne u (List.mem_append_right _ hu)]

/-- How an act changes the members: one of them, and then a continuation may go off. -/
structure Passage (e : Engine) (a : Act) (M R : Multiset Member)
    (woken : Option (Timer Continuation)) : Prop where
  alters : e.Alters a (e.deeds a) e.members M
  resting : M = Member.timers woken.toList + R
  members : (e.act a).members =
    Member.tasks (woken.toList.map (Timer.task · ((e.act a).next - 1))) + R
  le_next : e.next ≤ (e.act a).next
  drawn : woken.isSome = true → e.next < (e.act a).next
  late : woken.isSome = true → ∀ n, a = .advance n → (e.act a).next = e.next + 2
  quiet : woken.isSome = true → a.opening? = none

theorem Passage.still {a : Act} {M : Multiset Member} (h : e.Alters a (e.deeds a) e.members M)
    (hM : (e.act a).members = M) (hle : e.next ≤ (e.act a).next) : e.Passage a M M none where
  alters := h
  resting := (Multiset.zero_add M).symm
  members := hM.trans (Multiset.zero_add M).symm
  le_next := hle
  drawn h := by cases h
  late h := by cases h
  quiet h := by cases h

/-- A task takes a turn among others of other numbers. -/
theorem Yields.passage {t : Task} {l r : List Task} {rested woken : Option (Timer Continuation)}
    {left : Option Task} {e' : Engine} (h : e.Yields t (e.deeds (.advance t.number)) rested left)
    (htasks : e.tasks = l ++ t :: r) (hstirs : e.Stirs rested woken e')
    (hnext : (e.act (.advance t.number)).next = e'.next)
    (hact : (e.act (.advance t.number)).members = Member.tasks left.toList +
      (Member.tasks (l ++ r ++ woken.toList.map (Timer.task · (e.next + 1))) +
        Member.timers e'.scheduler.timers.armed)) :
    ∃ M R woken, e.Passage (.advance t.number) M R woken := by
  have harmed := Member.timers_perm hstirs.armed
  rw [Member.timers_append, Member.timers_append] at harmed
  refine ⟨Member.tasks left.toList + Member.timers rested.toList +
      (Member.tasks (l ++ r) + Member.timers e.scheduler.timers.armed),
    Member.tasks left.toList + (Member.tasks (l ++ r) + Member.timers e'.scheduler.timers.armed),
    woken, ?_, ?_, ?_, ?_, ?_, ?_, fun _ => rfl⟩
  · rw [members_of_tasks htasks]
    refine .turn h fun hsome => ?_
    rw [hnext]
    exact hstirs.next_rested hsome
  · calc Member.tasks left.toList + Member.timers rested.toList +
          (Member.tasks (l ++ r) + Member.timers e.scheduler.timers.armed)
        = Member.tasks left.toList + Member.tasks (l ++ r) +
          (Member.timers rested.toList + Member.timers e.scheduler.timers.armed) := by abel
      _ = Member.tasks left.toList + Member.tasks (l ++ r) +
          (Member.timers woken.toList + Member.timers e'.scheduler.timers.armed) := by rw [harmed]
      _ = Member.timers woken.toList + (Member.tasks left.toList +
          (Member.tasks (l ++ r) + Member.timers e'.scheduler.timers.armed)) := by abel
  · have hnumber : ∀ x ∈ woken, e'.next - 1 = e.next + 1 := by
      rintro x rfl
      rw [hstirs.next_woken rfl]
      rfl
    have hwoken : woken.toList.map (Timer.task · (e'.next - 1)) =
        woken.toList.map (Timer.task · (e.next + 1)) :=
      List.map_congr_left fun x hx => by rw [hnumber x (Option.mem_toList.1 hx)]
    rw [hact, hnext, hwoken, Member.tasks_append]
    abel
  · rw [hnext]
    exact hstirs.le_next
  · intro hsome
    rw [hnext, hstirs.next_woken hsome]
    exact Nat.lt_add_of_pos_right Nat.two_pos
  · intro hsome _ _
    rw [hnext, hstirs.next_woken hsome]

/-- A look at a task that leads to nothing changes nothing. -/
theorem Passage.of_idle {n : Nat} (hact : e.act (.advance n) = e)
    (hdeeds : e.deeds (.advance n) = []) (hidle : ∀ t, e.task? n = some t → t.isIdle = true) :
    e.Passage (.advance n) e.members e.members none := by
  have hkeep : e.Alters (.advance n) [] e.members e.members := by
    refine .keep ?_
    rintro _ t ⟨⟩ ht
    exact hidle t ht
  exact .still (hdeeds ▸ hkeep) (by rw [hact]) (by rw [hact])

theorem Sound.passage_advance (h : e.Sound S) (n : Nat) :
    ∃ M R woken, e.Passage (.advance n) M R woken := by
  cases ht : e.task? n with
  | none =>
    have hdeeds : e.deeds (.advance n) = [] := by simp [deeds, ht]
    refine ⟨_, _, _, .of_idle (Engine.act_advance_none ht) hdeeds fun t ht' => ?_⟩
    cases ht.symm.trans ht'
  | some t =>
    obtain ⟨rfl, l, r, htasks, hne⟩ := h.exists_split ht
    obtain ⟨hmem, -⟩ := task?_eq_some ht
    have hdeeds : e.deeds (.advance t.number) = e.deedsOf t := by simp [deeds, ht]
    have hturned := turned_move (e := e) (h.tasks t hmem)
    have hlt : t.number < e.next := h.lt_next t hmem
    -- The other tasks have other numbers, and so has the one that goes on after a delay.
    have he' : ∀ {e' : Engine} {rested woken}, e.Stirs rested woken e' →
        e'.tasks = l ++ t :: (r ++ woken.toList.map (Timer.task · (e.next + 1))) := by
      intro e' rested woken hstirs
      rw [hstirs.tasks, htasks, List.append_assoc, List.cons_append]
    have hothers : ∀ woken : Option (Timer Continuation), ∀ t' ∈ l ++
        (r ++ woken.toList.map (Timer.task · (e.next + 1))), t'.number ≠ t.number := by
      intro woken t' ht'
      rw [← List.append_assoc] at ht'
      rcases List.mem_append.1 ht' with ht' | ht'
      · exact hne t' ht'
      · obtain ⟨x, -, rfl⟩ := List.mem_map.1 ht'
        exact Nat.ne_of_gt (Nat.lt_succ_of_lt hlt)
    cases hmove : e.move t with
    | blocked =>
      rw [hmove] at hturned
      have hnone : e.deeds (.advance t.number) = [] := hdeeds.trans hturned.1
      refine ⟨_, _, _, .of_idle (Engine.act_advance_blocked ht hmove) hnone fun t' ht' => ?_⟩
      cases ht.symm.trans ht'
      exact hturned.2
    | on e' t' =>
      rw [hmove] at hturned
      obtain ⟨rested, woken, hstirs, hturns, hnumber, htoken, hwaiting⟩ := hturned
      have hact : e.act (.advance t.number) = e'.putTask t' := Engine.act_advance_on ht hmove
      have hyields : e.Yields t (e.deeds (.advance t.number)) rested (some t') := by
        rw [hdeeds]
        refine ⟨hturns, ?_, ?_, ?_⟩
        · rintro _ ⟨⟩
          exact hnumber
        · rintro _ ⟨⟩
          exact htoken
        · rintro _ ⟨⟩
          exact hwaiting
      have hput := tasks_putTask (he' hstirs) (hothers woken) hnumber
      refine hyields.passage htasks hstirs (by rw [hact]; rfl) ?_
      rw [hact, members_of_tasks hput, List.append_assoc, Option.toList_some, Member.tasks_cons,
        Member.tasks_nil, Multiset.cons_add, Multiset.zero_add]
      rfl
    | «over» e' ending =>
      rw [hmove] at hturned
      obtain ⟨rested, woken, hstirs, hturns⟩ := hturned
      have hact : e.act (.advance t.number) = e'.endTask t.number ending :=
        Engine.act_advance_over ht hmove
      have hyields : e.Yields t (e.deeds (.advance t.number)) rested none := by
        rw [hdeeds]
        exact ⟨hturns, by simp, by simp, by simp⟩
      have hfilter := tasks_filter (he' hstirs) (hothers woken)
      refine hyields.passage htasks hstirs (by rw [hact]; rfl) ?_
      rw [hact, members, Engine.endTask, hfilter]
      simp only [Option.toList_none, Member.tasks_nil, Multiset.zero_add, List.append_assoc]

theorem Sound.passage_wake (_ : e.Sound S) (place : Nat) :
    ∃ M R woken, e.Passage (.wake place) M R woken := by
  cases hx : e.scheduler.timers.armed[place]? with
  | none =>
    have hact : e.act (.wake place) = e := by simp [Engine.act, hx]
    exact ⟨e.members, _, _, .still (.keep_of_ne (by simp)) (by rw [hact]) (by rw [hact])⟩
  | some x =>
    obtain ⟨pending, hact⟩ : ∃ pending, e.act (.wake place) =
        { e.disarm place with
          pending, next := e.next + 1, tasks := e.tasks ++ [x.task e.next] } := by
      simp only [Engine.act, hx, resumeContinuation]
      rw [untrack_eq]
      exact ⟨_, rfl⟩
    have harmed := Member.timers_perm (armed_perm hx)
    rw [Member.timers_cons] at harmed
    refine ⟨e.members, Member.tasks e.tasks +
      Member.timers (e.disarm place).scheduler.timers.armed, some x, .keep_of_ne (by simp), ?_, ?_,
      ?_, ?_, fun _ => by simp, fun _ => rfl⟩
    · rw [members, harmed, Option.toList_some, Member.timers_cons, Member.timers_nil]
      simp only [Multiset.add_cons, Multiset.cons_add, Multiset.zero_add]
    · rw [hact]
      show Member.tasks (e.tasks ++ [x.task e.next]) + _ = Member.tasks [x.task e.next] + (_ + _)
      rw [Member.tasks_append]
      abel
    · rw [hact]
      exact Nat.le_succ _
    · rw [hact]
      exact fun _ => Nat.lt_succ_self _

theorem Sound.passage_drop (_ : e.Sound S) (place : Nat) :
    ∃ M R woken, e.Passage (.drop place) M R woken := by
  cases hx : e.scheduler.timers.armed[place]? with
  | none =>
    have hle : e.scheduler.timers.armed.length ≤ place := List.getElem?_eq_none_iff.1 hx
    have hdeeds : e.deeds (.drop place) = [] := by simp [deeds, hx]
    have hmembers : (e.act (.drop place)).members = e.members := by
      rw [Engine.act, disarm, List.eraseIdx_of_length_le hle]
      rfl
    exact ⟨e.members, _, _, .still (by rw [hdeeds]; exact .keep_of_ne (by simp)) hmembers le_rfl⟩
  | some x =>
    have harmed := Member.timers_perm (armed_perm hx)
    have hmembers : e.members = .timer x ::ₘ (e.act (.drop place)).members := by
      rw [members, harmed, Member.timers_cons, Multiset.add_cons]
      rfl
    refine ⟨_, _, _, .still ?_ rfl le_rfl⟩
    rw [hmembers]
    simp only [deeds, hx]
    exact .drop hx

theorem Sound.passage_cut (h : e.Sound S) (n : Nat) :
    ∃ M R woken, e.Passage (.cut n) M R woken := by
  cases ht : e.task? n with
  | none =>
    have hnone := List.find?_eq_none.1 ht
    have hdeeds : e.deeds (.cut n) = [] := by simp [deeds, ht]
    have hfilter : e.tasks.filter (fun t => t.number != n) = e.tasks :=
      List.filter_eq_self.2 fun t ht' => bne_iff_ne.2 fun heq => hnone t ht' (beq_iff_eq.2 heq)
    have hmembers : (e.act (.cut n)).members = e.members := by
      simp only [members, Engine.act, hfilter]
    exact ⟨e.members, _, _, .still (by rw [hdeeds]; exact .keep_of_ne (by simp)) hmembers le_rfl⟩
  | some t =>
    obtain ⟨rfl, l, r, htasks, hne⟩ := h.exists_split ht
    have hmembers : e.members = .task t ::ₘ (e.act (.cut t.number)).members := by
      rw [members_of_tasks htasks]
      simp only [members, Engine.act, tasks_filter htasks hne]
    refine ⟨_, _, _, .still ?_ rfl le_rfl⟩
    rw [hmembers]
    simp only [deeds, ht]
    exact .cut

theorem passage_start {a : Act} {token : Token} {f : Frame} (ha : a.opening? = some (token, f)) :
    ∃ M R woken, e.Passage a M R woken := by
  have hact : e.deeds a = [] ∧ e.act a = (e.spawn token [f]).2 := by
    cases a with
    | run => cases ha; exact ⟨rfl, rfl⟩
    | resume => cases ha; exact ⟨rfl, rfl⟩
    | _ => cases ha
  refine ⟨.task ⟨e.next, token, false, [f]⟩ ::ₘ e.members, _, _, .still ?_ ?_ ?_⟩
  · rw [hact.1]
    refine .start ha ?_
    rw [hact.2]
    exact Nat.lt_succ_self _
  · rw [hact.2]
    show Member.tasks (e.tasks ++ [_]) + Member.timers _ = _
    rw [Member.tasks_append, Member.tasks_cons, Member.tasks_nil, Multiset.add_cons,
      Multiset.add_zero, Multiset.cons_add]
    rfl
  · rw [hact.2]
    exact Nat.le_succ _

/-- **An act changes one member, and rouses one at most.** -/
theorem Sound.passage (h : e.Sound S) (a : Act) : ∃ M R woken, e.Passage a M R woken := by
  cases a with
  | advance n => exact h.passage_advance n
  | run runner token request => exact passage_start rfl
  | resume runner token workflow inst event => exact passage_start rfl
  | wake place => exact h.passage_wake place
  | drop place => exact h.passage_drop place
  | cut n => exact h.passage_cut n
  | cancelDelay dispatcher inst =>
    have hact : (e.act (.cancelDelay dispatcher inst)).members = e.members ∧
        (e.act (.cancelDelay dispatcher inst)).next = e.next := by
      simp only [Engine.act, Engine.cancelDelay]
      cases e.pending.get? (dispatcher, inst) with
      | none => exact ⟨rfl, rfl⟩
      | some p => exact ⟨rfl, rfl⟩
    exact ⟨e.members, _, _, .still (.keep_of_ne (by simp)) hact.1 hact.2.ge⟩
  | cancel token => exact ⟨e.members, _, _, .still (.keep_of_ne (by simp)) rfl le_rfl⟩
  | openGate name => exact ⟨e.members, _, _, .still (.keep_of_ne (by simp)) rfl le_rfl⟩
  | pass millis => exact ⟨e.members, _, _, .still (.keep_of_ne (by simp)) rfl le_rfl⟩
  | mint => exact ⟨e.members, _, _, .still (.keep_of_ne (by simp)) rfl (Nat.le_succ _)⟩
  | addRunner registry services =>
    exact ⟨e.members, _, _, .still (.keep_of_ne (by simp)) rfl (Nat.le_add_right _ 2)⟩
  | releaseRunner runner => exact ⟨e.members, _, _, .still (.keep_of_ne (by simp)) rfl le_rfl⟩

/-! ## What no act takes back -/

/-- What has come about and stays: tokens that are cancelled, gates that are open and tasks that are
over remain so, the clock never goes back, runners are there for good, and they are held from outside
until they are released. -/
structure Retains (e : Engine) (a : Act) (e' : Engine) : Prop where
  cancelled : e.cancelled <:+ e'.cancelled
  gates : e.gates <:+ e'.gates
  endings : e.endings <+: e'.endings
  start : e'.scheduler.timers.start = e.scheduler.timers.start
  clock : e.scheduler.timers.clock ≤ e'.scheduler.timers.clock
  held : ∀ r ∈ e.held, a ≠ .releaseRunner r → r ∈ e'.held
  runners : e'.runners = e.runners ∨
    ∃ R, (∃ services, a = .addRunner R.registry services) ∧
      e'.runners = e.runners.put ⟨e.next⟩ R ∧ e.next < e'.next

theorem Retains.refl (e : Engine) (a : Act) : e.Retains a e :=
  ⟨List.suffix_rfl, List.suffix_rfl, List.prefix_rfl, rfl, le_rfl, fun _ hr _ => hr, .inl rfl⟩

theorem Stirs.retains {m : Engine} {rested woken : Option (Timer Continuation)}
    (h : e.Stirs rested woken m) (a : Act) (tasks : List Task) {endings : List (Nat × Ending)}
    (hendings : e.endings <+: endings) : e.Retains a { m with tasks, endings } where
  cancelled := h.cancelled
  gates := h.gates ▸ List.suffix_rfl
  endings := hendings
  start := h.start
  clock := h.clock.ge
  held _ hr _ := h.held ▸ hr
  runners := .inl h.runners

/-- **No act takes back what has come about.** -/
theorem Sound.retains (h : e.Sound S) (a : Act) : e.Retains a (e.act a) := by
  cases a with
  | advance n =>
    cases ht : e.task? n with
    | none =>
      rw [Engine.act_advance_none ht]
      exact .refl e _
    | some t =>
      obtain ⟨hmem, rfl⟩ := task?_eq_some ht
      obtain ⟨-, hact⟩ | ⟨m, u, _, _, -, hstirs, -, hact⟩ |
        ⟨m, ending, _, _, -, hstirs, -, hact⟩ := h.advance_cases hmem
      · rw [hact]
        exact .refl e _
      · rw [hact]
        exact hstirs.retains _ _ (hstirs.endings ▸ List.prefix_rfl)
      · rw [hact]
        exact hstirs.retains _ _ (hstirs.endings ▸ List.prefix_append _ _)
  | wake place =>
    simp only [Engine.act]
    split
    · rw [resumeContinuation, untrack_eq]
      exact { Retains.refl e (.wake place) with runners := .inl rfl }
    · exact .refl e _
  | cancelDelay dispatcher inst =>
    simp only [Engine.act, Engine.cancelDelay]
    cases e.pending.get? (dispatcher, inst) with
    | none => exact .refl e _
    | some p =>
      exact { Retains.refl e (.cancelDelay dispatcher inst) with
        cancelled := List.suffix_cons _ _ }
  | cancel token =>
    exact { Retains.refl e (.cancel token) with cancelled := List.suffix_cons _ _ }
  | openGate name => exact { Retains.refl e (.openGate name) with gates := List.suffix_cons _ _ }
  | pass millis => exact { Retains.refl e (.pass millis) with clock := Nat.le_max_left _ _ }
  | addRunner registry services =>
    exact { Retains.refl e (.addRunner registry services) with
      held := fun r hr _ => List.mem_cons_of_mem _ hr
      runners := .inr ⟨⟨registry, services, ⟨e.next + 1⟩⟩, ⟨services, rfl⟩, rfl,
        Nat.lt_add_of_pos_right (by decide)⟩ }
  | releaseRunner r =>
    exact { Retains.refl e (.releaseRunner r) with
      held := fun r' hr' hne => List.mem_filter.2 ⟨hr', bne_iff_ne.2 fun heq => hne (heq ▸ rfl)⟩ }
  | drop place => exact { Retains.refl e (.drop place) with }
  | cut n => exact { Retains.refl e (.cut n) with }
  | mint => exact { Retains.refl e .mint with runners := .inl rfl }
  | run r token q => exact { Retains.refl e (.run r token q) with runners := .inl rfl }
  | resume r token workflow inst event =>
    exact { Retains.refl e (.resume r token workflow inst event) with runners := .inl rfl }

/-- It is entered how a task that is over has ended. -/
theorem Sound.endings_over (h : e.Sound S) {t : Task} (ht : t ∈ e.tasks) {m : Engine} {ending : Ending}
    (hmove : e.move t = .over m ending) :
    (e.act (.advance t.number)).endings = e.endings ++ [(t.number, ending)] := by
  obtain ⟨_, _, hstirs, -⟩ := turned_of_over (h.tasks t ht) hmove
  rw [Engine.act_advance_over (h.task?_of_mem ht) hmove, endTask, hstirs.endings]

/-- **How a task has ended stays on record.** -/
theorem Sound.endings_after (h : e.Sound S) {as : List Act} (has : ∀ a ∈ as, a.Meets S) :
    e.endings <+: (e.after as).endings := by
  induction as generalizing e with
  | nil => exact List.prefix_refl _
  | cons a as ih =>
    exact (h.retains a).endings.trans
      (ih (h.act (has a List.mem_cons_self)).1 fun b hb => has b (List.mem_cons_of_mem _ hb))

end Engine

/-! ## Marks -/

namespace Member

/-- A member has a number below another one, and a chain that rests does so under a token of its
own. -/
def IsMarked (next : Nat) : Member → Prop
  | task t => t.number < next
  | timer x => (∃ σ : Token, x.token = σ.child x.work.delay) ∧ x.work.delay < next

theorem IsMarked.mono {m : Member} {n n' : Nat} (h : m.IsMarked n) (hle : n ≤ n') :
    m.IsMarked n' := by
  cases m with
  | task t => exact Nat.lt_of_lt_of_le h hle
  | timer x => exact ⟨h.1, Nat.lt_of_lt_of_le h.2 hle⟩

theorem IsMarked.headD_path {x : Timer Continuation} {n : Nat} (h : (timer x).IsMarked n) :
    x.token.path.headD 0 = x.work.delay := by
  obtain ⟨σ, hσ⟩ := h.1
  rw [hσ]
  rfl

end Member

namespace Engine

variable {e : Engine} {a : Act} {N M R : Multiset Member} {woken : Option (Timer Continuation)}
  {ds : List (Chain × Deed)}

/-- The task that goes on after a delay by an act, if one does. -/
def woken? (e : Engine) (a : Act) : Option Task :=
  if a.opening?.isSome then none else (e.act a).tasks.find? fun t => e.next ≤ t.number

/-- A continuation is armed under the number that comes next. -/
theorem Turns.of_rested {t : Task} {rested : Option (Timer Continuation)} {frames : List Frame}
    (h : e.Turns t ds rested frames) :
    ∀ x ∈ rested, x.token = t.token.child e.next ∧ x.work.delay = e.next := by
  intro x hx
  cases h with
  | rest ht =>
    cases hx
    exact ⟨rfl, rfl⟩
  | _ => cases hx

/-- A member that was not there before has the number that came next. -/
theorem Alters.isMarked (h : e.Alters a ds N M) (hN : ∀ m ∈ N, m.IsMarked e.next) :
    ∀ m ∈ M, m.IsMarked e.next ∨ m.IsMarked (e.act a).next ∧
      (a.opening? = none → ∃ n x, a = .advance n ∧ m = .timer x ∧ x.work.delay = e.next) := by
  intro m hm
  cases h.comes m hm with
  | keep hm => exact .inl (hN m hm)
  | @left t _ _ t' ht _ h ht' =>
    have hlt : t.number < e.next := hN (.task t) ht
    refine .inl ?_
    show t'.number < e.next
    rw [h.number t' ht']
    exact hlt
  | @rested t _ _ x _ ha h hdrawn hx =>
    obtain ⟨htoken, hdelay⟩ := h.turns.of_rested x hx
    exact .inr ⟨⟨⟨t.token, hdelay ▸ htoken⟩, hdelay ▸ hdrawn⟩, fun _ => ⟨_, x, ha, rfl, hdelay⟩⟩
  | start ha hdrawn =>
    refine .inr ⟨hdrawn, fun hnone => ?_⟩
    rw [ha] at hnone
    cases hnone

namespace Passage

variable (h : e.Passage a M R woken) (hmarked : ∀ m ∈ e.members, m.IsMarked e.next)
include h

theorem mem_of_woken {x : Timer Continuation} (hx : x ∈ woken) : .timer x ∈ M := by
  rw [h.resting]
  exact Multiset.mem_add.2 (.inl (Member.mem_timers.2 ⟨x, Option.mem_toList.2 hx, rfl⟩))

theorem mem_of_mem_rest {m : Member} (hm : m ∈ R) : m ∈ M := by
  rw [h.resting]
  exact Multiset.mem_add.2 (.inr hm)

/-- A member goes on after a delay that has just ended, or was left by what was done. -/
theorem mem_cases {m : Member} (hm : m ∈ (e.act a).members) :
    (∃ x ∈ woken, m = .task (x.task ((e.act a).next - 1))) ∨ m ∈ R := by
  rw [h.members] at hm
  rcases Multiset.mem_add.1 hm with hm | hm
  · obtain ⟨t, ht, rfl⟩ := Member.mem_tasks.1 hm
    obtain ⟨x, hx, rfl⟩ := List.mem_map.1 ht
    exact .inl ⟨x, Option.mem_toList.1 hx, rfl⟩
  · exact .inr hm

include hmarked

/-- A continuation that goes off is older than the task that goes on with it. -/
theorem delay_lt {x : Timer Continuation} (hx : x ∈ woken) :
    x.token.path.headD 0 = x.work.delay ∧ x.work.delay < (e.act a).next - 1 := by
  have hsome := Option.isSome_of_mem hx
  have hdrawn := h.drawn hsome
  obtain hm | ⟨hm, hnew⟩ := h.alters.isMarked hmarked _ (h.mem_of_woken hx)
  · have hlt : x.work.delay < e.next := hm.2
    exact ⟨hm.headD_path, by omega⟩
  · obtain ⟨n, x', ha, heq, hdelay⟩ := hnew (h.quiet hsome)
    cases heq
    have hlate := h.late hsome n ha
    exact ⟨hm.headD_path, by omega⟩

/-- All members are marked throughout. -/
theorem isMarked : ∀ m ∈ (e.act a).members, m.IsMarked (e.act a).next := by
  intro m hm
  obtain ⟨x, hx, rfl⟩ | hm := h.mem_cases hm
  · have hdrawn := h.drawn (Option.isSome_of_mem hx)
    show (e.act a).next - 1 < (e.act a).next
    omega
  · obtain hm | ⟨hm, -⟩ := h.alters.isMarked hmarked _ (h.mem_of_mem_rest hm)
    · exact hm.mono h.le_next
    · exact hm

/-- The task that goes on after a delay is the one that is new. -/
theorem woken?_eq : e.woken? a = woken.map (Timer.task · ((e.act a).next - 1)) := by
  unfold Engine.woken?
  -- Unless a task is started, all the others are old.
  have hold : a.opening? = none → ∀ t, .task t ∈ R → t.number < e.next := by
    intro ha t ht
    obtain hm | ⟨-, hnew⟩ := h.alters.isMarked hmarked _ (h.mem_of_mem_rest ht)
    · exact hm
    · obtain ⟨n, x, -, heq, -⟩ := hnew ha
      cases heq
  cases hwoken : woken with
  | none =>
    split
    · rfl
    · rename_i ha
      have ha : a.opening? = none := Option.not_isSome_iff_eq_none.1 ha
      refine List.find?_eq_none.2 fun t ht => ?_
      have ht := task_mem_members ht
      rw [h.members, hwoken] at ht
      have ht : Member.task t ∈ R := by simpa using ht
      have hlt := hold ha t ht
      simp only [decide_eq_true_eq]
      omega
  | some x =>
    have hx : x ∈ woken := hwoken
    have hsome := Option.isSome_of_mem hx
    have hnone := h.quiet hsome
    have hdrawn := h.drawn hsome
    have hin : .task (x.task ((e.act a).next - 1)) ∈ (e.act a).members := by
      rw [h.members, hwoken]
      simp
    obtain ⟨t, ht⟩ : ∃ t, (e.act a).tasks.find? (fun t => e.next ≤ t.number) = some t := by
      rw [← Option.isSome_iff_exists, List.find?_isSome]
      exact ⟨_, mem_tasks_of_members hin, decide_eq_true (Nat.le_sub_one_of_lt hdrawn)⟩
    have hle : e.next ≤ t.number := by simpa using List.find?_some ht
    have htask := task_mem_members (List.mem_of_find?_eq_some ht)
    rw [h.members, hwoken] at htask
    rw [hnone, Option.isSome_none, if_neg Bool.false_ne_true, ht]
    rcases Multiset.mem_add.1 htask with htask | htask
    · obtain rfl : t = x.task ((e.act a).next - 1) := by simpa using htask
      rfl
    · have hlt := hold hnone t htask
      omega

end Passage

/-- What a member stems from that is there after an act. -/
inductive Stems (e : Engine) (a : Act) : Member → Prop
  | keep {m} (h : m ∈ e.members) : Stems e a m
  | left {t rested left t'} (ht : .task t ∈ e.members) (ha : a = .advance t.number)
      (h : e.Yields t (e.deeds a) rested left) (ht' : t' ∈ left) : Stems e a (.task t')
  | rested {t rested left x} (ht : .task t ∈ e.members) (ha : a = .advance t.number)
      (h : e.Yields t (e.deeds a) rested left) (hx : x ∈ rested) : Stems e a (.timer x)
  | start {token f} (ha : a.opening? = some (token, f)) :
      Stems e a (.task ⟨e.next, token, false, [f]⟩)
  | woken {x} (h : Stems e a (.timer x)) {n : Nat} (hn : e.next ≤ n) : Stems e a (.task (x.task n))

/-- **A member was there before, or is left of one that was, or is started.** -/
theorem Sound.stems {S : Standard} (h : e.Sound S) (a : Act) :
    ∀ m ∈ (e.act a).members, e.Stems a m := by
  obtain ⟨M, R, woken, hpassage⟩ := h.passage a
  have haltered : ∀ m ∈ M, e.Stems a m := by
    intro m hm
    cases hpassage.alters.comes m hm with
    | keep hm => exact .keep hm
    | left ht ha h ht' => exact .left ht ha h ht'
    | rested ht ha h _ hx => exact .rested ht ha h hx
    | start ha _ => exact .start ha
  intro m hm
  obtain ⟨x, hx, rfl⟩ | hm := hpassage.mem_cases hm
  · exact .woken (haltered _ (hpassage.mem_of_woken hx))
      (Nat.le_sub_one_of_lt (hpassage.drawn (Option.isSome_of_mem hx)))
  · exact haltered m (hpassage.mem_of_mem_rest hm)

end Engine

end DurableFlow
