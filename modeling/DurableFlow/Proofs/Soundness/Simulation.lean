import DurableFlow.Proofs.Soundness.Moves

/-!
# Simulation by accounts

Every act of a sound engine leaves a sound engine behind, and its account changes as accounts do, by
the deeds of the act and what callers are told by it (`Engine.Sound.act`). What a task does by
itself is shown in `DurableFlow.Proofs.Soundness.Moves`; here are the other acts, which start tasks,
cut them off, or wake and drop the chains that rest.
-/

namespace DurableFlow

namespace Engine

variable {S : Standard} {e : Engine} {t : Task}

/-- The task of a number stands among tasks of other numbers. -/
theorem Sound.split (h : e.Sound S) {n : Nat} (hn : n ∈ e.tasks.map Task.number) :
    ∃ l t r, e.tasks = l ++ t :: r ∧ t.number = n ∧ (∀ t' ∈ l ++ r, t'.number ≠ n) ∧
      e.others n = (l ++ r).flatMap Task.frames := by
  obtain ⟨t, ht, rfl⟩ := List.mem_map.1 hn
  obtain ⟨l, r, hlr⟩ := List.append_of_mem ht
  have hnodup := h.numbers
  rw [hlr, List.map_append, List.map_cons, List.nodup_middle, List.nodup_cons,
    ← List.map_append] at hnodup
  have hne : ∀ t' ∈ l ++ r, t'.number ≠ t.number := fun t' ht' heq =>
    hnodup.1 (List.mem_map.2 ⟨t', ht', heq⟩)
  refine ⟨l, t, r, hlr, rfl, hne, ?_⟩
  have hfilter : ∀ l' : List Task, (∀ t' ∈ l', t'.number ≠ t.number) →
      l'.filter (fun t' => t'.number != t.number) = l' := fun l' hl' =>
    List.filter_eq_self.2 fun t' ht' => bne_iff_ne.2 (hl' t' ht')
  rw [others, hlr, List.filter_append, List.filter_cons_of_neg (by simp),
    hfilter l fun t' ht' => hne t' (List.mem_append_left _ ht'),
    hfilter r fun t' ht' => hne t' (List.mem_append_right _ ht')]

theorem flatMap_perm (l r : List Task) (t : Task) :
    ((l ++ t :: r).flatMap Task.frames).Perm (t.frames ++ (l ++ r).flatMap Task.frames) := by
  rw [List.flatMap_append, List.flatMap_cons, List.flatMap_append, ← List.append_assoc,
    ← List.append_assoc]
  exact List.perm_append_comm.append_right _

theorem Sound.account_eq (h : e.Sound S) (ht : t ∈ e.tasks) :
    e.account = e.accountBut t t.frames := by
  obtain ⟨l, t', r, htasks, hnumber, hne, hothers⟩ := h.split (List.mem_map_of_mem ht)
  have heq : t = t' := by
    rw [htasks, List.mem_append, List.mem_cons] at ht
    rcases ht with ht | rfl | ht
    · exact absurd rfl (hne t (List.mem_append_left _ ht))
    · rfl
    · exact absurd rfl (hne t (List.mem_append_right _ ht))
  subst heq
  rw [account, accountBut, frames, hothers, htasks]
  exact accountOf_perm e (flatMap_perm l r t)

theorem Sound.account_putTask (h : e.Sound S) (hn : t.number ∈ e.tasks.map Task.number) :
    (e.putTask t).account = e.accountBut t t.frames := by
  obtain ⟨l, t₀, r, htasks, hnumber, hne, hothers⟩ := h.split hn
  have hmap : ∀ l' : List Task, (∀ t' ∈ l', t'.number ≠ t.number) →
      l'.map (fun t' => if t'.number == t.number then t else t') = l' := by
    intro l' hl'
    refine (List.map_congr_left fun t' ht' => ?_).trans (List.map_id l')
    simp [hl' t' ht']
  have hput : (e.putTask t).tasks = l ++ t :: r := by
    rw [Engine.putTask, htasks, List.map_append, List.map_cons,
      hmap l fun t' ht' => hne t' (List.mem_append_left _ ht'),
      hmap r fun t' ht' => hne t' (List.mem_append_right _ ht')]
    simp [hnumber]
  rw [account, frames, hput, accountBut, hothers]
  exact accountOf_perm e (flatMap_perm l r t)

theorem Sound.advance (h : e.Sound S) (n : Nat) :
    (e.act (.advance n)).Sound S ∧
      Account.Passes S e.account (e.deeds (.advance n)) (e.replies (.advance n))
        (e.act (.advance n)).account := by
  simp only [act, Engine.advance, deeds, replies]
  cases ht : e.task? n with
  | none => exact ⟨h, .refl⟩
  | some t =>
    obtain ⟨hmem, rfl⟩ := task?_eq_some ht
    have hholds : e.Holds S t t.frames :=
      ⟨h, List.mem_map_of_mem hmem, (h.tasks t hmem).frames, (h.tasks t hmem).calling⟩
    have hfits := fits_move hholds (h.account_eq hmem).symm
    dsimp only
    rcases hmove : e.move t with _ | ⟨e', t'⟩ | ⟨e', ending⟩
    · rw [hmove] at hfits
      obtain ⟨hds, hts⟩ := hfits
      rw [hds, hts]
      exact ⟨h, .refl⟩
    · rw [hmove] at hfits
      obtain ⟨hnumber, htask, hsound, hn, hpasses⟩ := hfits
      rw [← hnumber] at hn hpasses
      have haccount : (e'.putTask t').account = e'.accountBut t' t'.frames :=
        hsound.account_putTask hn
      refine ⟨hsound.putTask htask, ?_⟩
      rw [Option.getD_some, haccount]
      exact hpasses
    · rw [hmove] at hfits
      obtain ⟨hsound, hn, hpasses⟩ := hfits
      exact ⟨hsound.filterTasks _ rfl rfl rfl rfl, hpasses⟩

theorem Sound.cut (h : e.Sound S) (n : Nat) :
    (e.act (.cut n)).Sound S ∧
      Account.Passes S e.account (e.deeds (.cut n)) (e.replies (.cut n))
        (e.act (.cut n)).account := by
  refine ⟨h.filterTasks _ rfl rfl rfl rfl, ?_⟩
  have haccount : (e.act (.cut n)).account = e.accountOf (e.others n) := rfl
  rw [haccount, deeds, replies]
  cases ht : e.task? n with
  | some t =>
    obtain ⟨hmem, rfl⟩ := task?_eq_some ht
    rw [h.account_eq hmem]
    exact .steps (steps_losses e t.frames _)
  | none =>
    have hothers : e.others n = e.frames := by
      have hnone := List.find?_eq_none.1 ht
      rw [others, List.filter_eq_self.2 fun t ht' => bne_iff_ne.2 fun heq =>
        hnone t ht' (beq_iff_eq.2 heq)]
      rfl
    rw [hothers]
    exact .refl

/-- A task that is added at the end counts by its frame. -/
theorem account_of_tasks {m : Engine} {n : Nat} {token : Token} {f : Frame}
    (h : m.tasks = e.tasks ++ [⟨n, token, false, [f]⟩]) :
    m.account = m.accountOf (f :: e.frames) := by
  have hframes : m.frames = e.frames ++ [f] := by
    rw [frames, h, List.flatMap_append]
    rfl
  rw [account, hframes]
  exact accountOf_perm m (List.perm_append_singleton _ _)

theorem Sound.open (h : e.Sound S) (token : Token) (runner : RunnerId) {q : Request}
    (hq : S.request q) (resuming : Bool) :
    (e.spawn token [.opening runner q resuming]).2.Sound S ∧ Account.Passes S e.account [] []
      (e.spawn token [.opening runner q resuming]).2.account := by
  refine ⟨h.spawn token hq, .steps ?_⟩
  have htasks : (e.spawn token [.opening runner q resuming]).2.tasks =
      e.tasks ++ [⟨e.next, token, false, [.opening runner q resuming]⟩] := rfl
  rw [account_of_tasks htasks]
  exact (Account.Step.number (Nat.le_succ e.next)).steps

/-- The timers with the one at a place put first. -/
theorem armed_perm {place : Nat} {timer : Timer Continuation}
    (h : e.scheduler.timers.armed[place]? = some timer) :
    e.scheduler.timers.armed.Perm (timer :: (e.disarm place).scheduler.timers.armed) := by
  obtain ⟨hlt, rfl⟩ := List.getElem?_eq_some_iff.1 h
  exact (List.getElem_cons_eraseIdx_perm hlt).symm

theorem Sound.wake (h : e.Sound S) (place : Nat) :
    (e.act (.wake place)).Sound S ∧
      Account.Passes S e.account [] [] (e.act (.wake place)).account := by
  rw [act]
  cases ht : e.scheduler.timers.armed[place]? with
  | none => exact ⟨h, .refl⟩
  | some timer =>
    obtain ⟨m, f, hm, hsound, htasks, hsteps⟩ := Engine.wake h (armed_perm ht)
    have hact : (e.disarm place).resumeContinuation timer.token timer.work = m := hm
    dsimp only
    rw [hact, account_of_tasks htasks]
    exact ⟨hsound, .steps (hsteps _)⟩

theorem Sound.drop (h : e.Sound S) (place : Nat) :
    (e.act (.drop place)).Sound S ∧
      Account.Passes S e.account (e.deeds (.drop place)) [] (e.act (.drop place)).account := by
  rw [act, deeds]
  cases ht : e.scheduler.timers.armed[place]? with
  | none =>
    have hle : e.scheduler.timers.armed.length ≤ place := List.getElem?_eq_none_iff.1 ht
    have hdisarm : e.disarm place = e := by
      rw [disarm, List.eraseIdx_of_length_le hle]
      rfl
    rw [hdisarm]
    exact ⟨h, .refl⟩
  | some timer =>
    have hperm := armed_perm ht
    have hsound : (e.disarm place).Sound S := h.withTimers fun timer' ht' =>
      h.armed timer' (hperm.mem_iff.2 (List.mem_cons_of_mem _ ht'))
    have hstrands : e.account.strands = timer.strand ::ₘ (e.disarm place).account.strands :=
      accountOf_armed hperm e.frames
    refine ⟨hsound, .steps ?_⟩
    dsimp only
    split
    · exact (Account.Step.drop hstrands).steps
    · exact (Account.Step.lose hstrands).steps

theorem Sound.cancelDelay (h : e.Sound S) (d : DispatcherId) (inst : String) :
    ((e.cancelDelay d inst).getD e).Sound S ∧
      Account.Passes S e.account [] [] ((e.cancelDelay d inst).getD e).account := by
  rw [Engine.cancelDelay]
  cases e.pending.get? (d, inst) with
  | none => exact ⟨h, .refl⟩
  | some p => exact ⟨h.congr rfl le_rfl rfl rfl, .refl⟩

theorem Sound.addRunner (h : e.Sound S) {registry : Registry} (hr : registry.Meets S)
    (services : Services) :
    (e.addRunner registry services).2.Sound S ∧
      Account.Passes S e.account [] [] (e.addRunner registry services).2.account := by
  refine ⟨⟨h.numbers, ?_, h.tasks, h.armed, ?_⟩,
    .steps (Account.Step.number (Nat.le_add_right e.next 2)).steps⟩
  · intro t ht
    exact Nat.lt_of_lt_of_le (h.lt_next t ht) (Nat.le_add_right e.next 2)
  · intro id r hid
    simp only [Engine.addRunner, Table.get?_put] at hid
    split at hid
    · cases hid
      exact hr
    · exact h.runners id r hid

/-- **Every act of a sound engine leaves a sound engine behind, and its account passes on by the
deeds of the act.** -/
theorem Sound.act (h : e.Sound S) {a : Act} (ha : a.Meets S) :
    (e.act a).Sound S ∧
      Account.Passes S e.account (e.deeds a) (e.replies a) (e.act a).account := by
  cases a with
  | advance n => exact h.advance n
  | run runner token request => exact h.open token runner ha false
  | resume runner token workflow inst event => exact h.open token runner (S.plain rfl) true
  | wake place => exact h.wake place
  | drop place => exact h.drop place
  | cut n => exact h.cut n
  | cancel token => exact ⟨h.congr rfl le_rfl rfl rfl, .refl⟩
  | cancelDelay dispatcher inst => exact h.cancelDelay dispatcher inst
  | openGate name => exact ⟨h.congr rfl le_rfl rfl rfl, .refl⟩
  | pass millis => exact ⟨h.congr rfl le_rfl rfl rfl, .refl⟩
  | mint =>
    exact ⟨h.congr rfl (Nat.le_succ _) rfl rfl,
      .steps (Account.Step.number (Nat.le_succ e.next)).steps⟩
  | addRunner registry services => exact h.addRunner ha services
  | releaseRunner runner => exact ⟨h.congr rfl le_rfl rfl rfl, .refl⟩

end Engine

end DurableFlow
