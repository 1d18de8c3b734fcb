import DurableFlow.Proofs.Families.MemberNumbers
import DurableFlow.Proofs.Termination.Ranks

/-!
# What a family has left to do

What a family has left to do are the grades of its frames and of its chains that rest. It grows only
when a task of the family is started. Main statements: every turn of a task either leaves everything
as it is, or leaves less to do (`Engine.Turns.lessens`), and so does every act
(`Engine.Sound.lessens_act`).
-/

namespace DurableFlow

namespace Registry

/-- What a member has left to do. -/
noncomputable def effort (R : Registry) : Member → Multiset Grade
  | .task t => R.grades t.frames
  | .timer x => {R.timerGrade x}

/-- What the members of a family have left to do. -/
noncomputable def efforts (R : Registry) (own : Nat → Bool) (M : Multiset Member) :
    Multiset Grade :=
  (M.filter fun m => own m.number = true).bind R.effort

variable {R : Registry} {own : Nat → Bool} {M N : Multiset Member} {m : Member}

theorem efforts_cons_of_own (h : own m.number = true) (M : Multiset Member) :
    R.efforts own (m ::ₘ M) = R.effort m + R.efforts own M := by
  have hfilter : (m ::ₘ M).filter (fun m => own m.number = true) =
      m ::ₘ M.filter fun m => own m.number = true := Multiset.filter_cons_of_pos M h
  rw [efforts, hfilter, Multiset.cons_bind]
  rfl

theorem efforts_cons_of_not_own (h : own m.number = false) (M : Multiset Member) :
    R.efforts own (m ::ₘ M) = R.efforts own M := by
  have hfilter : (m ::ₘ M).filter (fun m => own m.number = true) =
      M.filter fun m => own m.number = true := Multiset.filter_cons_of_neg M (by simp [h])
  rw [efforts, hfilter]
  rfl

theorem efforts_add (M N : Multiset Member) :
    R.efforts own (M + N) = R.efforts own M + R.efforts own N := by
  simp only [efforts, Multiset.filter_add, Multiset.add_bind]

theorem efforts_zero : R.efforts own 0 = 0 := rfl

end Registry

/-! ## Turns -/

namespace Registry

variable {R : Registry} {o : Origin} {c : Chain} {i : Nat} {below : List Frame}

/-- A chain that is abandoned within a step has less left to do, and so have the frames above it. -/
theorem lessens_abandoned (fs : List Frame) (o : Origin) (c : Chain) {stage : Stage}
    (hstage : stage.phase = .within i) :
    Grade.Lessens (R.grades [.driving o c (.halting .cancelled)])
      (R.grades (fs ++ [.driving o c stage])) := by
  have hless : (R.grade (.driving o c (.halting .cancelled))).Less
      (R.grade (.driving o c stage)) := by
    have habort := Goes.less (R := R) (p := 0) (c := c) (.abort (i := i)) (by simp)
      stage.remainder .nothing
    rw [← hstage] at habort
    exact habort
  have hlast := Grade.lessens_cons hless 0
  rw [R.grades_append]
  by_cases hzero : R.grades fs = 0
  · rw [hzero, Multiset.zero_add]
    exact hlast
  · have habove := (Grade.lessens_zero hzero).add_right (R.grades [.driving o c stage])
    rw [Multiset.zero_add] at habove
    exact hlast.trans habove

/-- The workflow that is started is of a lower rank, or there is none of that name. -/
theorem lessens_launched (hR : R.IsAcyclic) {context : Context} {r : RunnerId} {q : Request}
    {next : Reply → Behaviour}
    (hwithin : c.definition.Within i c.context (.launch context r q next)) (o : Origin)
    (below : List Frame) :
    Grade.Lessens (R.grades (.opening r q false :: .driving o c (.calling i next) :: below))
      (R.grades (.driving o c (.inside i (.launch context r q next)) :: below)) := by
  have hcalling : (R.grade (.driving o c (.calling i next))).Less
      (R.grade (.driving o c (.inside i (.launch context r q next)))) :=
    Grade.less_of_remainder .launch
  have hopening : (R.grade (.opening r q false)).Less
      (R.grade (.driving o c (.inside i (.launch context r q next)))) := by
    cases hfind : R.find? q.workflow with
    | none =>
      simp only [Registry.grade, hfind]
      exact Grade.bottom_less _ _ _ _
    | some d =>
      simp only [Registry.grade, hfind]
      exact Grade.less_of_rank (R.rank_lt hR ⟨i, _, _, r, q, next, hwithin, rfl⟩ hfind)
  refine Grade.lessens_replace (L := {R.grade (.opening r q false),
    R.grade (.driving o c (.calling i next))}) (fun g hg => ?_) (R.grades below)
  rcases Multiset.mem_cons.1 hg with rfl | hg
  · exact hopening
  · rw [Multiset.mem_singleton.1 hg]
    exact hcalling

/-- A chain that rests has less left to do than before, and so has its caller. -/
theorem lessens_rested (o : Origin) (c : Chain) (next : Nat) (due : Instant) (reply : Reply)
    (below : List Frame) :
    Grade.Lessens (R.gradeOf c (.resting next) .nothing ::ₘ R.grades (Frame.departed o reply below))
      (R.grades (.driving o c (.acting ⟨[], .suspend next due⟩) :: below)) := by
  have hrests : (R.gradeOf c (.resting next) .nothing).Less
      (R.grade (.driving o c (.acting ⟨[], .suspend next due⟩))) :=
    Goes.less (p := 0) .suspend (by simp [Deed.IsForward]) _ _
  have hreplace := Grade.lessens_replace (L := {R.gradeOf c (.resting next) .nothing, .bottom})
    (g := R.grade (.driving o c (.acting ⟨[], .suspend next due⟩))) (fun g hg => by
      rcases Multiset.mem_cons.1 hg with rfl | hg
      · exact hrests
      · rw [Multiset.mem_singleton.1 hg]
        exact Grade.bottom_less _ _ _ _) (R.grades below)
  rcases R.lessens_departed o reply below with heq | hless
  · rw [heq]
    exact hreplace
  · exact (hless.cons _).trans hreplace

/-- A chain that stops leaves at most a caller behind who is told. -/
theorem lessens_stopped (o : Origin) (c : Chain) (result : RunResult) (reply : Reply)
    (below : List Frame) :
    Grade.Lessens (R.grades (Frame.departed o reply below))
      (R.grades (.driving o c (.acting ⟨[], .stop result⟩) :: below)) := by
  have hreplace : Grade.Lessens (.bottom ::ₘ R.grades below)
      (R.grades (.driving o c (.acting ⟨[], .stop result⟩) :: below)) :=
    Grade.lessens_cons (Grade.bottom_less _ _ _ _) _
  rcases R.lessens_departed o reply below with heq | hless
  · rw [heq]
    exact hreplace
  · exact hless.trans hreplace

end Registry

namespace Engine

variable {S : Standard} {e : Engine} {t : Task} {a : Act} {own : Nat → Bool} {R : Registry}
  {ds : List (Chain × Deed)} {rested : Option (Timer Continuation)} {frames : List Frame}

/-- What a task asks for is looked up in the registry. -/
def IsServed (e : Engine) (R : Registry) (t : Task) : Prop :=
  ∀ r q resuming below, t.frames = .opening r q resuming :: below →
    ∀ runner, e.runners.get? r = some runner → runner.registry = R

/-- **A turn of a task leaves everything as it is, or less to do.** -/
theorem Turns.lessens (h : e.Turns t ds rested frames) (hs : t.Sound S) (hR : R.IsAcyclic)
    (hserved : e.IsServed R t) (hforward : ∀ d ∈ ds, d.2.IsForward d.1.definition) :
    (rested = none ∧ frames = t.frames ∧ t.isIdle = true) ∨
      Grade.Lessens (R.grades frames + (rested.toList.map R.timerGrade : List Grade))
        (R.grades t.frames) := by
  have lessens : ∀ {fs : List Frame}, Grade.Lessens (R.grades fs) (R.grades t.frames) →
      Grade.Lessens (R.grades fs + ((none : Option (Timer Continuation)).toList.map R.timerGrade :
        List Grade)) (R.grades t.frames) := fun hless => by
    rw [Option.toList_none, List.map_nil, Multiset.coe_nil, Multiset.add_zero]
    exact hless
  have resumed : ∀ {f : Frame} {below : List Frame} (reply : Reply), t.frames = f :: below →
      Grade.Lessens (R.grades (Frame.resumed reply below)) (R.grades t.frames) := by
    intro f below reply hframes
    rw [hframes]
    exact R.lessens_resumed _ _ _
  cases h with
  | look hidle => exact .inl ⟨rfl, rfl, hidle⟩
  | @abandon fs o c stage hframes hstage hp hc =>
    refine .inr (lessens ?_)
    rw [hframes]
    cases stage with
    | inside i b => exact R.lessens_abandoned fs o c (i := i) rfl
    | calling i next => exact R.lessens_abandoned fs o c (i := i) rfl
    | _ => cases hstage
  | decline hframes => exact .inr (lessens (resumed _ hframes))
  | @start r q resuming below id d inst c i hframes hc hcontext hdefined hnumber =>
    refine .inr (lessens ?_)
    obtain ⟨runner, hrunner, hfind⟩ := hdefined
    rw [hserved r q resuming below hframes runner hrunner] at hfind
    have hless : (R.grade (.driving (.call r c.completion) c (.entering i))).Less
        (R.grade (.opening r q resuming)) := by
      simp only [Registry.grade, hfind]
      exact Grade.less_of_way (Nat.lt_succ_of_le (Nat.sub_le _ _))
    rw [hframes]
    exact R.lessens_top hless _
  | @stay o c i b b' below hframes hb =>
    refine .inr (lessens ?_)
    have hless : (R.grade (.driving o c (.inside i b'))).Less
        (R.grade (.driving o c (.inside i b))) := Grade.less_of_remainder (.next hb)
    rw [hframes]
    exact R.lessens_top hless _
  | @launch o c i context r q next below hframes =>
    refine .inr (lessens ?_)
    obtain ⟨-, hwithin⟩ := hs.frames (.driving o c (.inside i (.launch context r q next)))
      (hframes ▸ List.mem_cons_self)
    rw [hframes]
    exact R.lessens_launched hR hwithin o below
  | @go o c stage below d p p' c' stage' hframes hstage hd hcontext hgo =>
    refine .inr (lessens ?_)
    have hless : (R.grade (.driving o c' stage')).Less (R.grade (.driving o c stage)) := by
      refine hgo.less (fun d' hd' => ?_) _ _
      cases d with
      | none => cases hd'
      | some d =>
        rw [List.mem_singleton.1 hd']
        exact hforward (c, d) List.mem_cons_self
    rw [hframes]
    exact R.lessens_top hless _
  | @rest o c next due below reply hframes =>
    refine .inr ?_
    have hadd : ∀ M : Multiset Grade,
        M + (([R.gradeOf c (.resting next) .nothing] : List Grade) : Multiset Grade) =
          R.gradeOf c (.resting next) .nothing ::ₘ M := fun M => by
      rw [Multiset.coe_singleton, Multiset.add_comm, Multiset.singleton_add]
    rw [hframes]
    show Grade.Lessens (R.grades (Frame.departed o reply below) +
      (([R.gradeOf c (.resting next) .nothing] : List Grade) : Multiset Grade)) _
    rw [hadd]
    exact R.lessens_rested o c next due reply below
  | @stop o c result below hframes =>
    refine .inr (lessens ?_)
    rw [hframes]
    exact R.lessens_stopped o c result _ below
  | halt hframes => exact .inr (lessens (resumed _ hframes))
  | panic hframes => exact .inr (lessens (resumed _ hframes))
  | receive hframes => exact .inr (lessens (resumed _ hframes))

end Engine

/-! ## Acts -/

/-- A member stays as it is in the course of an act, unless the act is a look at it that leads to
nothing. -/
inductive Member.Stays (a : Act) : Member → Member → Prop
  | same {m : Member} (h : ∀ t, m = .task t → a = .advance t.number → t.isIdle = true) : Stays a m m
  | looked {t t' : Task} (ha : a = .advance t.number) (hidle : t.isIdle = true)
      (hnumber : t'.number = t.number) (htoken : t'.token = t.token)
      (hframes : t'.frames = t.frames) : Stays a (.task t) (.task t')

/-- A family has as much to do as before, and those who have something to do are still there. -/
structure Registry.Idles (R : Registry) (own : Nat → Bool) (a : Act) (N M : Multiset Member) :
    Prop where
  efforts : R.efforts own M = R.efforts own N
  stays : ∀ m ∈ N, own m.number = true → R.effort m ≠ 0 → ∃ m' ∈ M, m.Stays a m'

namespace Registry

variable {R : Registry} {own : Nat → Bool}

theorem efforts_left {left : Option Task} (h : ∀ t' ∈ left, own t'.number = true) :
    R.efforts own (Member.tasks left.toList) = R.grades (left.elim [] Task.frames) := by
  cases left with
  | none => rfl
  | some t' =>
    rw [Option.toList_some, Member.tasks_cons, Member.tasks_nil,
      efforts_cons_of_own (h t' rfl), efforts_zero, Multiset.add_zero]
    rfl

theorem efforts_rested {rested : Option (Timer Continuation)}
    (h : ∀ x ∈ rested, own x.work.delay = true) :
    R.efforts own (Member.timers rested.toList) =
      (rested.toList.map R.timerGrade : List Grade) := by
  cases rested with
  | none => rfl
  | some x =>
    rw [Option.toList_some, Member.timers_cons, Member.timers_nil,
      efforts_cons_of_own (h x rfl), efforts_zero, Multiset.add_zero]
    rfl

theorem efforts_of_not_own {M : Multiset Member} (h : ∀ m ∈ M, own m.number = false) :
    R.efforts own M = 0 := by
  rw [efforts, Multiset.filter_eq_nil.2 fun m hm => by simp [h m hm]]
  rfl

end Registry

namespace Engine

variable {S : Standard} {e : Engine} {t : Task} {a : Act} {own : Nat → Bool} {R : Registry}
  {ds : List (Chain × Deed)} {rested : Option (Timer Continuation)} {left : Option Task}
  {N M : Multiset Member}

/-- What is known of the members of a family that an act may take on. -/
structure Governs (e : Engine) (own : Nat → Bool) (R : Registry) (a : Act)
    (ds : List (Chain × Deed)) : Prop where
  acyclic : R.IsAcyclic
  inherits : e.Inherits own a
  quiet : a.opening?.isSome = true → own e.next = false
  served : ∀ t ∈ e.tasks, own t.number = true → e.IsServed R t
  forward : e.concerns own a = true → ∀ d ∈ ds, d.2.IsForward d.1.definition

/-- What becomes of a task of another family is of that family. -/
theorem Yields.idles_of_not_own (h : e.Yields t ds rested left) (hown : own t.number = false)
    (hrested : ∀ x ∈ rested, own x.work.delay = own t.number) (rest : Multiset Member) :
    R.Idles own (.advance t.number) (.task t ::ₘ rest)
      (Member.tasks left.toList + Member.timers rested.toList + rest) := by
  have hleft : R.efforts own (Member.tasks left.toList) = 0 := by
    refine Registry.efforts_of_not_own fun m hm => ?_
    obtain ⟨t', ht', rfl⟩ := Member.mem_tasks.1 hm
    exact (congrArg own (h.number t' (Option.mem_toList.1 ht'))).trans hown
  have hnone : R.efforts own (Member.timers rested.toList) = 0 := by
    refine Registry.efforts_of_not_own fun m hm => ?_
    obtain ⟨x, hx, rfl⟩ := Member.mem_timers.1 hm
    exact (hrested x (Option.mem_toList.1 hx)).trans hown
  refine ⟨?_, fun m hm hmown _ => ?_⟩
  · rw [Registry.efforts_add, Registry.efforts_add, hleft, hnone, Multiset.zero_add,
      Multiset.zero_add, Registry.efforts_cons_of_not_own hown]
  · rcases Multiset.mem_cons.1 hm with rfl | hm
    · cases hown.symm.trans hmown
    · refine ⟨m, Multiset.mem_add.2 (.inr hm), .same ?_⟩
      rintro u rfl ha
      have hnumber : t.number = u.number := Act.advance.inj ha
      cases hown.symm.trans ((congrArg own hnumber).trans hmown)

/-- A task that is looked at to no effect is still there. -/
theorem Yields.idles_of_same (h : e.Yields t ds none left) (hown : own t.number = true)
    (hframes : left.elim [] Task.frames = t.frames) (hidle : t.isIdle = true)
    {rest : Multiset Member} (hfind : ∀ u, .task u ∈ rest → t.number = u.number → t = u) :
    R.Idles own (.advance t.number) (.task t ::ₘ rest) (Member.tasks left.toList + 0 + rest) := by
  have hefforts := Registry.efforts_left (R := R) fun t' (ht' : t' ∈ left) =>
    (congrArg own (h.number t' ht')).trans hown
  refine ⟨?_, fun m hm hmown heffort => ?_⟩
  · rw [Multiset.add_zero, Registry.efforts_add, Registry.efforts_cons_of_own hown, hefforts,
      hframes]
    rfl
  · rw [Multiset.add_zero]
    rcases Multiset.mem_cons.1 hm with rfl | hm
    · cases left with
      | none =>
        have hnone : t.frames = [] := hframes.symm
        exact absurd (congrArg R.grades hnone) heffort
      | some t' =>
        refine ⟨.task t', Multiset.mem_add.2 (.inl ?_), ?_⟩
        · exact Member.mem_tasks.2 ⟨t', List.mem_singleton_self _, rfl⟩
        · exact .looked rfl hidle (h.number t' rfl) (h.token t' rfl) hframes
    · refine ⟨m, Multiset.mem_add.2 (.inr hm), .same ?_⟩
      rintro u rfl ha
      exact hfind u hm (Act.advance.inj ha) ▸ hidle

/-- A task that is cut off had something to do in the family, or it is nothing to it. -/
theorem lessens_cut (t : Task) (M : Multiset Member) :
    R.Idles own (.cut t.number) (.task t ::ₘ M) M ∨
      Grade.Lessens (R.efforts own M) (R.efforts own (.task t ::ₘ M)) := by
  by_cases hcase : own t.number = true ∧ R.effort (.task t) ≠ 0
  · obtain ⟨hown, hne⟩ := hcase
    have hless := (Grade.lessens_zero hne).add_right (R.efforts own M)
    rw [Multiset.zero_add] at hless
    rw [Registry.efforts_cons_of_own hown]
    exact .inr hless
  · refine .inl ⟨?_, fun m hm hmown heffort => ?_⟩
    · cases hown : own t.number with
      | false => exact (Registry.efforts_cons_of_not_own hown M).symm
      | true =>
        have hzero : R.effort (.task t) = 0 := by
          by_contra hne
          exact hcase ⟨hown, hne⟩
        rw [Registry.efforts_cons_of_own hown, hzero, Multiset.zero_add]
    · rcases Multiset.mem_cons.1 hm with rfl | hm
      · exact absurd ⟨hmown, heffort⟩ hcase
      · exact ⟨m, hm, .same nofun⟩

/-- **What an act does to one member leaves less to do, or is nothing.** -/
theorem Alters.lessens (h : e.Alters a ds N M) (hg : e.Governs own R a ds)
    (hfind : ∀ t, .task t ∈ N → e.task? t.number = some t)
    (hsound : ∀ t, .task t ∈ N → t.Sound S) :
    R.Idles own a N M ∨ Grade.Lessens (R.efforts own M) (R.efforts own N) := by
  cases h with
  | keep hidle =>
    refine .inl ⟨rfl, fun m hm _ _ => ⟨m, hm, .same ?_⟩⟩
    rintro t rfl ha
    exact hidle _ t ha (hfind t hm)
  | @turn t _ rested left rest hyields hdrawn =>
    have ht : .task t ∈ Member.task t ::ₘ rest := Multiset.mem_cons_self _ _
    have hnumbers : ∀ x ∈ rested, own x.work.delay = own t.number := by
      intro x hx
      rw [(hyields.turns.of_rested x hx).2]
      exact hg.inherits.drawn t.number rfl (hdrawn (Option.isSome_of_mem hx))
    cases hown : own t.number with
    | false => exact .inl (hyields.idles_of_not_own hown hnumbers rest)
    | true =>
      have hlessens := hyields.turns.lessens (hsound t ht) hg.acyclic
        (hg.served t (task?_eq_some (hfind t ht)).1 hown) (hg.forward hown)
      obtain ⟨rfl, hframes, hidle⟩ | hless := hlessens
      · -- Tasks are found under their numbers, so that only one has been looked at.
        refine .inl (hyields.idles_of_same hown hframes hidle fun u hu hnumber => ?_)
        have hfound := hfind u (Multiset.mem_cons_of_mem hu)
        rw [← hnumber, hfind t ht] at hfound
        exact Option.some.inj hfound
      · rw [Registry.efforts_add, Registry.efforts_add, Registry.efforts_cons_of_own hown,
          Registry.efforts_left fun t' ht' => (congrArg own (hyields.number t' ht')).trans hown,
          Registry.efforts_rested fun x hx => (hnumbers x hx).trans hown]
        exact .inr (hless.add_right _)
  | @start _ token f _ ha hdrawn =>
    have hother : own e.next = false := hg.quiet (by rw [ha]; rfl)
    refine .inl ⟨Registry.efforts_cons_of_not_own hother _, fun m hm _ _ => ?_⟩
    refine ⟨m, Multiset.mem_cons_of_mem hm, .same ?_⟩
    rintro u rfl rfl
    cases ha
  | @drop place x d _ hx =>
    cases hown : own x.work.delay with
    | false =>
      refine .inl ⟨(Registry.efforts_cons_of_not_own hown _).symm, fun m hm hmown _ => ?_⟩
      rcases Multiset.mem_cons.1 hm with rfl | hm
      · cases hown.symm.trans hmown
      · exact ⟨m, hm, .same nofun⟩
    | true =>
      rw [Registry.efforts_cons_of_own hown]
      exact .inr (Grade.lessens_drop _ _)
  | @cut t _ => exact lessens_cut t M

/-- **An act leaves less for a family to do, or it is nothing to it.** -/
theorem Sound.lessens_act (h : e.Sound S) (hmarked : e.IsMarked)
    (hg : e.Governs own R a (e.deeds a)) :
    R.Idles own a e.members (e.act a).members ∨
      Grade.Lessens (R.efforts own (e.act a).members) (R.efforts own e.members) := by
  obtain ⟨M, rest, woken, hpassage⟩ := h.passage a
  have halters := hpassage.alters.lessens hg
    (fun t ht => h.task?_of_mem (mem_tasks_of_members ht))
    (fun t ht => h.tasks t (mem_tasks_of_members ht))
  -- A continuation that goes off has less left to do as a task.
  have hwoken : (R.efforts own (e.act a).members = R.efforts own M ∧
      ∀ m ∈ M, own m.number = true → m ∈ (e.act a).members) ∨
        Grade.Lessens (R.efforts own (e.act a).members) (R.efforts own M) := by
    rw [hpassage.members, hpassage.resting]
    cases hx : woken with
    | none => exact .inl ⟨rfl, fun m hm _ => hm⟩
    | some x =>
      have hsame : own (x.task ((e.act a).next - 1)).number = own x.work.delay := by
        have hinherits := hg.inherits.woken (x.task ((e.act a).next - 1))
          (by rw [hpassage.woken?_eq hmarked, hx]; rfl)
        exact hinherits.trans (congrArg own (hpassage.delay_lt hmarked hx).1)
      simp only [Option.toList_some, List.map_cons, List.map_nil, Member.tasks_cons,
        Member.tasks_nil, Member.timers_cons, Member.timers_nil, Multiset.cons_add,
        Multiset.zero_add]
      cases hown : own x.work.delay with
      | false =>
        refine .inl ⟨?_, fun m hm hmown => ?_⟩
        · rw [Registry.efforts_cons_of_not_own (m := .timer x) hown,
            Registry.efforts_cons_of_not_own (m := .task _) (hsame.trans hown)]
        · rcases Multiset.mem_cons.1 hm with rfl | hm
          · cases hown.symm.trans hmown
          · exact Multiset.mem_cons_of_mem hm
      | true =>
        rw [Registry.efforts_cons_of_own (m := .timer x) hown,
          Registry.efforts_cons_of_own (m := .task _) (hsame.trans hown)]
        have hless : (R.grade (.driving .continuation x.work.chain (.entering x.work.next))).Less
            (R.timerGrade x) := Goes.less (p := 0) .wake (by simp) _ _
        exact .inr (Grade.lessens_cons hless _)
  obtain hidles | hless := halters
  · obtain ⟨hsame, hstay⟩ | hless := hwoken
    · refine .inl ⟨hsame.trans hidles.efforts, fun m hm hown heffort => ?_⟩
      obtain ⟨m', hm', hstays⟩ := hidles.stays m hm hown heffort
      have hown' : own m'.number = true := by
        cases hstays with
        | same => exact hown
        | looked _ _ hnumber => exact (congrArg own hnumber).trans hown
      exact ⟨m', hstay m' hm' hown', hstays⟩
    · exact .inr (hidles.efforts ▸ hless)
  · obtain ⟨hsame, -⟩ | hless' := hwoken
    · exact .inr (hsame ▸ hless)
    · exact .inr (hless'.trans hless)

end Engine

end DurableFlow
