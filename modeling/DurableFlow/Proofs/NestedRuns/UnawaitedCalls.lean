import DurableFlow.Proofs.NestedRuns.AwaitedCalls
import DurableFlow.Proofs.Histories.FrameStacks

/-!
# Calls that do not wait

How the task of a call ends that does not wait: when the chain stops that it was made for, the task
returns what the chain has come to (`Engine.Sound.serves_act`, and `Engine.Sound.serves_after` for a
whole history). Nothing becomes of runners (`Engine.IsNew.runner_stays`).
-/

namespace DurableFlow

/-- Whether a chain leaves its call by this deed although it has not come to a stop. -/
def Deed.isExit : Deed → Bool
  | .suspended _ | .halted _ | .panicked | .lost => true
  | _ => false

theorem Deed.isPanic_of_isExit {d : Deed} (h : d.isExit = false) : d.isPanic = false := by
  cases d with
  | panicked => cases h
  | _ => rfl

namespace Engine

variable {S : Standard} {e m : Engine} {as bs : List Act} {r : RunnerId} {R : Runner} {t : Task}
  {n : Nat} {x : String} {o : Origin} {c : Chain} {stage : Stage} {above frames : List Frame}
  {ds : List (Chain × Deed)} {rested : Option (Timer Continuation)}

/-- A task was there before, or a move has left it, or it has not taken its first move. -/
theorem Sound.task_of_act (h : m.Sound S) {a : Act} {u : Task} (hu : u ∈ (m.act a).tasks) :
    u ∈ m.tasks ∨ (∃ t ∈ m.tasks, a = .advance t.number ∧ ∃ m', m.move t = .on m' u) ∨
      m.next ≤ u.number ∧ ((∃ token f, a.opening? = some (token, f) ∧ u.frames = [f]) ∨
        ∃ c i, u.frames = [.driving .continuation c (.entering i)]) := by
  cases h.stems a _ (task_mem_members hu) with
  | keep hm => exact .inl (mem_tasks_of_members hm)
  | @left t rested left _ ht ha hyields ht' =>
    subst ha
    have hnumber : u.number = t.number := hyields.number u ht'
    have ht := mem_tasks_of_members ht
    obtain ⟨-, hact⟩ | ⟨m', t', _, _, hmove, -, -, hact⟩ | ⟨m', ending, _, _, -, -, -, hact⟩ :=
      h.advance_cases ht
    · rw [hact] at hu
      exact .inl hu
    · obtain ⟨hsame, -⟩ := h.mem_tasks_advance ht hmove
      rw [hact] at hu
      obtain ⟨u₀, -, rfl⟩ := List.mem_map.1 hu
      split at hnumber
      · rename_i heq
        rw [if_pos heq]
        exact .inr (.inl ⟨t, ht, rfl, m', hmove⟩)
      · rename_i hne
        exact absurd (beq_iff_eq.2 (hnumber.trans hsame.symm)) hne
    · rw [hact] at hu
      exact absurd hnumber (bne_iff_ne.1 (List.mem_filter.1 hu).2)
  | start ha => exact .inr (.inr ⟨le_rfl, .inl ⟨_, _, ha, rfl⟩⟩)
  | woken hx hn => exact .inr (.inr ⟨hn, .inr ⟨_, _, rfl⟩⟩)

/-- A task that is not new was there before. -/
theorem Sound.mem_tasks_of_act (h : m.Sound S) {a : Act} {u : Task} (hu : u ∈ (m.act a).tasks)
    (hlt : u.number < m.next) :
    u ∈ m.tasks ∨ ∃ t ∈ m.tasks, t.number = u.number ∧ a = .advance u.number := by
  obtain hold | ⟨t, ht, rfl, m', hmove⟩ | ⟨hle, -⟩ := h.task_of_act hu
  · exact .inl hold
  · have hnumber := (h.mem_tasks_advance ht hmove).1
    exact .inr ⟨t, ht, hnumber.symm, by rw [hnumber]⟩
  · exact absurd hle (Nat.not_le.2 hlt)

/-- **What a move keeps of the frames of a task is kept by every act**, if it holds of the frames that
tasks begin with. -/
theorem Sound.frames_act (h : m.Sound S) {a : Act} {P : List Frame → Prop}
    (hopening : ∀ r q resuming, P [.opening r q resuming])
    (hwoken : ∀ c i, P [.driving .continuation c (.entering i)])
    (hmove : ∀ t ∈ m.tasks, a = .advance t.number → ∀ fs, m.Restacks t fs → P fs)
    (hP : ∀ t ∈ m.tasks, P t.frames) : ∀ u ∈ (m.act a).tasks, P u.frames := by
  intro u hu
  obtain hold | ⟨t, ht, ha, m', hleft⟩ | ⟨-, ⟨τ, f, hf, hframes⟩ | ⟨c, i, hframes⟩⟩ :=
    h.task_of_act hu
  · exact hP u hold
  · exact hmove t ht ha _ (restacks_move hleft)
  · rw [hframes]
    cases a with
    | run id τ q => cases hf; exact hopening ..
    | resume id τ workflow inst event => cases hf; exact hopening ..
    | _ => cases hf
  · rw [hframes]
    exact hwoken c i

/-! ## What stays -/

/-- A runner has been there before, or is made. -/
theorem Sound.runner_of_act (h : m.Sound S) {a : Act} (hr : (m.act a).runners.get? r = some R) :
    m.runners.get? r = some R ∨
      (∃ services, a = .addRunner R.registry services) ∧ r.number < (m.act a).next := by
  obtain hsame | ⟨R', hmade, hput, hlt⟩ := (h.retains a).runners
  · exact .inl (hsame ▸ hr)
  · rw [hput, Table.get?_put] at hr
    split at hr
    · rename_i heq
      cases hr
      exact .inr ⟨hmade, heq ▸ hlt⟩
    · exact .inl hr

theorem IsNew.number_lt_of_runner (h : e.IsNew) (as : List Act)
    (hr : (e.after as).runners.get? r = some R) : r.number < (e.after as).next := by
  induction as using List.reverseRecOn generalizing R with
  | nil =>
    rw [after_nil, h.runners] at hr
    cases hr
  | append_singleton as a ih =>
    have hsound : (e.after as).Sound .any := (h.sound .any).after_any as
    rw [after_concat] at hr ⊢
    obtain hold | ⟨-, hlt⟩ := hsound.runner_of_act hr
    · exact (ih hold).trans_le (hsound.next_le a)
    · exact hlt

/-- The registry of a runner is the one that it was made over. -/
theorem IsNew.registry_eq_of_runner (h : e.IsNew) {registry : Registry}
    (has : ∀ a ∈ as, ∀ registry' services, a = .addRunner registry' services →
      registry' = registry)
    (hr : (e.after as).runners.get? r = some R) : R.registry = registry := by
  induction as using List.reverseRecOn generalizing R with
  | nil =>
    rw [after_nil, h.runners] at hr
    cases hr
  | append_singleton as a ih =>
    have hsound : (e.after as).Sound .any := (h.sound .any).after_any as
    rw [after_concat] at hr
    obtain hold | ⟨⟨services, rfl⟩, -⟩ := hsound.runner_of_act hr
    · exact ih (fun b hb => has b (List.mem_append_left _ hb)) hold
    · exact has _ (List.mem_append_right _ List.mem_cons_self) _ services rfl

/-- **A runner stays.** -/
theorem IsNew.runner_stays (h : e.IsNew) (as bs : List Act)
    (hr : (e.after as).runners.get? r = some R) : (e.after (as ++ bs)).runners.get? r = some R := by
  induction bs using List.reverseRecOn with
  | nil => rwa [List.append_nil]
  | append_singleton bs a ih =>
    have hsound : (e.after (as ++ bs)).Sound .any := (h.sound .any).after_any _
    rw [← List.append_assoc, after_concat]
    obtain hsame | ⟨R', -, hput, -⟩ := (hsound.retains a).runners
    · rw [hsame]
      exact ih
    · have hne : r ≠ ⟨(e.after (as ++ bs)).next⟩ := by
        rintro rfl
        exact lt_irrefl _ (h.number_lt_of_runner _ ih)
      rw [hput, Table.get?_put_of_ne _ _ hne]
      exact ih

/-! ## Calls that do not wait -/

/-- The outermost frame of the task of that number is a call for a chain of the instance, and does
not wait. -/
def Serves (m : Engine) (n : Nat) (x : String) : Prop :=
  ∃ t ∈ m.tasks, t.number = n ∧ ∃ above r c stage,
    t.frames = above ++ [.driving (.call r none) c stage] ∧ c.inst = x

/-- The end of a call above the outermost frame leaves that one where it is. -/
theorem bottom_resumed (reply : Reply)
    (hcalling : ∀ f ∈ above ++ [.driving o c stage], Frame.isCalling f = true) :
    ∃ above' stage', Frame.resumed reply (above ++ [.driving o c stage]) =
      above' ++ [.driving o c stage'] := by
  cases above with
  | nil =>
    have hstage := hcalling _ List.mem_cons_self
    cases stage with
    | calling i next => exact ⟨[], _, rfl⟩
    | _ => cases hstage
  | cons f above =>
    have hf := hcalling f List.mem_cons_self
    cases f with
    | driving o' c' stage' =>
      cases stage' with
      | calling i next => exact ⟨.driving o' c' (.inside i (next reply)) :: above, stage, rfl⟩
      | _ => cases hf
    | _ => cases hf

/-- A turn with something above the outermost frame leaves that one where it is. -/
theorem Turns.bottom_above (h : m.Turns t ds rested frames) (ht : t.Sound S) {f : Frame}
    (hframes : t.frames = f :: above ++ [.driving o c stage]) :
    ∃ above' stage', frames = above' ++ [.driving o c stage'] := by
  have hcalling := calling_of_sound ht hframes
  have same : ∀ {f' : Frame} {below : List Frame}, t.frames = f' :: below →
      below = above ++ [.driving o c stage] := by
    intro f' below h'
    rw [hframes] at h'
    exact (List.cons.inj h').2.symm
  have stays : ∀ {f' : Frame} {below : List Frame} (fs : List Frame), t.frames = f' :: below →
      ∃ above' stage', fs ++ below = above' ++ [.driving o c stage'] := by
    intro f' below fs h'
    exact ⟨fs ++ above, stage, by rw [same h', List.append_assoc]⟩
  have resumed : ∀ {f' : Frame} {below : List Frame} (reply : Reply), t.frames = f' :: below →
      ∃ above' stage', Frame.resumed reply below = above' ++ [.driving o c stage'] := by
    intro f' below reply h'
    rw [same h']
    exact bottom_resumed reply hcalling
  have departed : ∀ {f' : Frame} {below : List Frame} (o' : Origin) (reply : Reply),
      t.frames = f' :: below →
      ∃ above' stage', Frame.departed o' reply below = above' ++ [.driving o c stage'] := by
    intro f' below o' reply h'
    unfold Frame.departed
    split
    · exact stays [_] h'
    · exact resumed reply h'
  cases h with
  | look _ => exact ⟨f :: above, stage, hframes⟩
  | abandon h' _ _ _ =>
    obtain ⟨-, heq⟩ := List.append_inj' (hframes.symm.trans h') rfl
    cases heq
    exact ⟨[], _, rfl⟩
  | decline h' => exact resumed _ h'
  | start h' _ _ => exact stays [_] h'
  | stay h' _ => exact stays [_] h'
  | launch h' => exact stays [_, _] h'
  | go h' _ _ _ _ => exact stays [_] h'
  | rest h' => exact departed _ _ h'
  | stop h' => exact departed _ _ h'
  | halt h' => exact resumed _ h'
  | panic h' => exact resumed _ h'
  | receive h' => exact resumed _ h'

/-- A turn of the outermost frame leaves it in its place, unless its chain stops or leaves. -/
theorem Turns.bottom_alone (h : m.Turns t ds rested frames) (ht : t.Sound .loyal)
    (hframes : t.frames = [.driving (.call r none) c stage]) :
    (∃ above c' stage', frames = above ++ [.driving (.call r none) c' stage'] ∧
      c'.inst = c.inst) ∨ (∃ d, (c, d) ∈ ds ∧ d.isExit = true) ∨
    ∃ result, stage = .acting ⟨[], .stop result⟩ := by
  cases h with
  | look _ => exact .inl ⟨[], c, stage, hframes, rfl⟩
  | abandon h' _ _ _ =>
    obtain ⟨-, heq⟩ := List.append_inj' ((List.nil_append _).trans (hframes.symm.trans h')) rfl
    cases heq
    exact .inl ⟨[], c, _, rfl, rfl⟩
  | decline h' => cases hframes.symm.trans h'
  | start h' _ _ => cases hframes.symm.trans h'
  | stay h' _ =>
    cases hframes.symm.trans h'
    exact .inl ⟨[], c, _, rfl, rfl⟩
  | launch h' =>
    cases hframes.symm.trans h'
    exact .inl ⟨[_], c, _, rfl, rfl⟩
  | go h' _ _ _ hgo =>
    cases hframes.symm.trans h'
    have hloyal : c.definition.IsLoyal :=
      (ht.frames (.driving (.call r none) c stage) (hframes ▸ List.mem_cons_self)).1
    exact .inl ⟨[], _, _, rfl, hgo.inst_eq hloyal⟩
  | rest h' =>
    cases hframes.symm.trans h'
    exact .inr (.inl ⟨_, List.mem_cons_self, rfl⟩)
  | stop h' =>
    cases hframes.symm.trans h'
    exact .inr (.inr ⟨_, rfl⟩)
  | halt h' =>
    cases hframes.symm.trans h'
    exact .inr (.inl ⟨_, List.mem_cons_self, rfl⟩)
  | panic h' =>
    cases hframes.symm.trans h'
    exact .inr (.inl ⟨_, List.mem_cons_self, rfl⟩)
  | receive h' => cases hframes.symm.trans h'

/-- The task of a call that does not wait returns what its chain has come to. -/
theorem move_stopping {result : RunResult}
    (hframes : t.frames = [.driving (.call r none) c (.acting ⟨[], .stop result⟩)]) :
    m.move t = if t.parked then .on m { t with parked := false }
      else .over m (.returned (.ok result)) := by
  have habandon : abandon t = none := by simp [abandon, hframes, Stage.isInside]
  cases hp : t.parked with
  | true => simp [move, hp, habandon, isReady, hframes]
  | false => simp [move_driving hp hframes, moveDriving, moveActing, finish, answer]

/-- **A call that does not wait goes on serving its chain, or returns what the chain has come to**,
unless the chain leaves. -/
theorem Sound.serves_act (h : m.Sound .loyal) (hserves : m.Serves n x) (a : Act) :
    (m.act a).Serves n x ∨
    (∃ result, (∃ c, (c, .stopped result) ∈ m.deeds a ∧ c.inst = x) ∧
      (n, .returned (.ok result)) ∈ (m.act a).endings) ∨
    ∃ c d, (c, d) ∈ m.deeds a ∧ c.inst = x ∧ d.isExit = true := by
  obtain ⟨t, ht, rfl, above, r, c, stage, hframes, rfl⟩ := hserves
  by_cases hcut : a = .cut t.number
  · refine .inr (.inr ⟨c, .lost, ?_, rfl, rfl⟩)
    simp only [hcut, deeds, h.task?_of_mem ht, losses]
    exact List.mem_map_of_mem (List.mem_filterMap.2 ⟨.driving (.call r none) c stage,
      by simp [hframes], rfl⟩)
  by_cases hadvance : a = .advance t.number
  case neg =>
    exact .inl ⟨t, h.mem_tasks_act ht hadvance hcut, rfl, above, r, c, stage, hframes, rfl⟩
  subst hadvance
  have hdeeds : m.deeds (.advance t.number) = m.deedsOf t := by simp [deeds, h.task?_of_mem ht]
  rw [hdeeds]
  obtain ⟨-, hact⟩ | ⟨m', t', rested, woken, hmove, hstirs, hturns, hact⟩ |
    ⟨m', ending, rested, woken, hmove, hstirs, hturns, hact⟩ := h.advance_cases ht
  · rw [hact]
    exact .inl ⟨t, ht, rfl, above, r, c, stage, hframes, rfl⟩
  · obtain ⟨hnumber, hmem⟩ := h.mem_tasks_advance ht hmove
    cases above with
    | nil =>
      obtain ⟨above', c', stage', hframes', hinst⟩ | ⟨d, hd, hexit⟩ | ⟨result, rfl⟩ :=
        hturns.bottom_alone (h.tasks t ht) hframes
      · exact .inl ⟨t', hmem, hnumber, above', r, c', stage', hframes', hinst⟩
      · exact .inr (.inr ⟨c, d, hd, rfl, hexit⟩)
      · rw [move_stopping hframes] at hmove
        cases hp : t.parked with
        | true =>
          rw [hp] at hmove
          cases hmove
          exact .inl ⟨_, hmem, hnumber, [], r, c, _, hframes, rfl⟩
        | false =>
          rw [hp] at hmove
          cases hmove
    | cons f above =>
      obtain ⟨above', stage', hframes'⟩ := hturns.bottom_above (h.tasks t ht) hframes
      exact .inl ⟨t', hmem, hnumber, above', r, c, stage', hframes', rfl⟩
  · cases above with
    | nil =>
      obtain ⟨above', c', stage', hnil, -⟩ | ⟨d, hd, hexit⟩ | ⟨result, rfl⟩ :=
        hturns.bottom_alone (h.tasks t ht) hframes
      · simp at hnil
      · exact .inr (.inr ⟨c, d, hd, rfl, hexit⟩)
      · rw [move_stopping hframes] at hmove
        cases hp : t.parked with
        | true =>
          rw [hp] at hmove
          cases hmove
        | false =>
          rw [hp] at hmove
          cases hmove
          refine .inr (.inl ⟨result, ⟨c, ?_, rfl⟩, ?_⟩)
          · simp [deedsOf, hp, hframes, deed?]
          · rw [hact]
            exact List.mem_append_right _ List.mem_cons_self
    | cons f above =>
      obtain ⟨above', stage', hnil⟩ := hturns.bottom_above (h.tasks t ht) hframes
      simp at hnil

/-- **Throughout a history, a call that does not wait serves its chain until it returns what the
chain has come to**, unless the chain leaves. -/
theorem Sound.serves_after (h : m.Sound .loyal) (hserves : m.Serves n x) {bs : List Act}
    (hbs : ∀ a ∈ bs, a.Meets .loyal) :
    (m.after bs).Serves n x ∨
    (∃ result, .stopped result ∈ m.story x bs ∧
      (n, .returned (.ok result)) ∈ (m.after bs).endings) ∨
    ∃ d ∈ m.story x bs, d.isExit = true := by
  induction bs generalizing m with
  | nil => exact .inl hserves
  | cons a bs ih =>
    obtain ⟨hsound, -⟩ := h.act (hbs a List.mem_cons_self)
    have hstory : ∀ {c d}, (c, d) ∈ m.deeds a → c.inst = x → d ∈ m.story x (a :: bs) := by
      intro c d hd hx
      refine List.mem_map.2 ⟨(c, d), List.mem_filter.2 ⟨?_, beq_iff_eq.2 hx⟩, rfl⟩
      exact List.mem_append_left _ hd
    have hlater : ∀ {d}, d ∈ (m.act a).story x bs → d ∈ m.story x (a :: bs) := by
      intro d hd
      obtain ⟨s, hs, rfl⟩ := List.mem_map.1 hd
      obtain ⟨hmem, hx⟩ := List.mem_filter.1 hs
      exact List.mem_map_of_mem (List.mem_filter.2 ⟨List.mem_append_right _ hmem, hx⟩)
    obtain hnext | ⟨result, ⟨c, hc, hx⟩, hended⟩ | ⟨c, d, hd, hx, hexit⟩ := h.serves_act hserves a
    · obtain hlast | ⟨result, hresult, hended⟩ | ⟨d, hd, hexit⟩ :=
        ih hsound hnext fun b hb => hbs b (List.mem_cons_of_mem _ hb)
      · exact .inl hlast
      · exact .inr (.inl ⟨result, hlater hresult, hended⟩)
      · exact .inr (.inr ⟨d, hlater hd, hexit⟩)
    · have hstays : (n, Ending.returned (.ok result)) ∈ ((m.act a).after bs).endings :=
        (hsound.endings_after fun b hb => hbs b (List.mem_cons_of_mem _ hb)).subset hended
      exact .inr (.inl ⟨result, hstory hc hx, hstays⟩)
    · exact .inr (.inr ⟨d, hstory hd hx, hexit⟩)

end Engine

end DurableFlow
