import DurableFlow.Proofs.NestedRuns.AwaitedCalls

/-!
# Ladders of nested runs

A ladder is a number of instances, the last run of each of which is within a nested step of the run
of the one before, which waits for it (`Engine.Ladder`).

Main statement: how the last instance ends climbs the ladder unchanged (`Engine.Ladder.climbs`).
-/

namespace DurableFlow

/-- The step at the index starts a nested run. -/
def Definition.Nests (d : Definition) (i : Nat) (s : Nested) : Prop :=
  ∃ step, d.step? i = some step ∧ step.execute = s.start

/-- The context with the output of a nested run, if that has one. -/
def Context.adopt (c : Context) : Option Json → Context
  | some v => c.setOutput v
  | none => c

/-- The message of a nested step whose instance waits. -/
def Nested.pending (s : Nested) (inst : String) : String :=
  "sub-workflow " ++ ticked s.workflow ++ " instance " ++ ticked inst ++ " is waiting"

section Conclude

variable {s : Nested} (h : s.wait = true) (c : Context) (inst : String)

include h

theorem Nested.conclude_waiting :
    s.conclude c (.settled (.ok ⟨inst, .waiting, none⟩)) = .finish c (.wait (s.pending inst)) := by
  simp [conclude, h, pending]

theorem Nested.conclude_completed (output : Option Json) :
    s.conclude c (.settled (.ok ⟨inst, .completed, output⟩)) =
      .finish (c.adopt output) .proceed := by
  cases output <;> simp [conclude, h, Context.adopt]

end Conclude

/-- A nested step launches one request, and goes on with what it concludes from the reply. -/
theorem Nested.launch_of_leaves {s : Nested} {c context : Context} {r : RunnerId} {q : Request}
    {next : Reply → Behaviour} (h : (s.start c).Leaves (.launch context r q next)) :
    s.request c = .ok q ∧ next = s.conclude c := by
  -- Nothing launches a request once the step has come to its end.
  have finished : ∀ {c' : Context} {o : Outcome},
      ¬ (Behaviour.finish c' o).Leaves (.launch context r q next) := by
    intro c' o hleaves
    cases Behaviour.eq_of_leaves_finish hleaves
  have panicked : ∀ {c' : Context} {p : Panic},
      ¬ (Behaviour.panic c' p).Leaves (.launch context r q next) := by
    intro c' p hleaves
    obtain heq | ⟨b, hnext, -⟩ := hleaves.cases_head
    · cases heq
    · cases hnext
  have concluded : ∀ reply, ¬ (s.conclude c reply).Leaves (.launch context r q next) := by
    intro reply
    unfold conclude
    split
    · exact panicked
    · exact finished
    · split
      · exact finished
      · split <;> exact finished
  unfold start at h
  split at h
  · exact absurd h finished
  · obtain heq | ⟨b, hnext, hb⟩ := h.cases_head
    · cases heq
    cases hnext with
    | locate _ _ alive =>
      cases alive with
      | false => exact absurd hb finished
      | true =>
        simp only [if_true] at hb
        split at hb
        · rename_i q' hq'
          obtain heq | ⟨b, hnext, hb⟩ := hb.cases_head
          · obtain ⟨-, -, rfl, rfl⟩ := Behaviour.launch.inj heq
            exact ⟨hq', rfl⟩
          · cases hnext with
            | launch _ _ _ _ reply => exact absurd hb (concluded reply)
        · exact absurd hb finished

namespace Engine

variable {e : Engine} {D : Definition} {x : String} {as : List Act} {p : Nat} {c : Chain} {i : Nat}
  {k : CompletionId} {run : List (Chain × Deed)} {s : Nested} {v : Settlement}

/-- In the course of its last run, the instance was within a nested step at the index, whose call is
told by the completion. -/
def Nests (e : Engine) (x : String) (i : Nat) (s : Nested) (k : CompletionId) (as : List Act) :
    Prop :=
  ∃ before after, as = before ++ after ∧
    (∀ d ∈ (e.after before).saga x after, d.2.isStart = false) ∧
    ∃ t ∈ (e.after before).tasks, ∃ o P next below,
      t.Awaits k (.driving o P (.calling i next)) below ∧ P.inst = x ∧ P.definition.Nests i s

/-- **A nested step whose call has been told returns what it makes of that**: that is what is done
for its instance next, after the call has been told, and then its plan comes. -/
theorem Spell.returns_nested {as bs : List Act} {t : Task} {o : Origin} {P : Chain}
    {next : Reply → Behaviour} {below : List Frame} (h : e.Spell D x as bs)
    (ht : t ∈ (e.after as).tasks) (hawaits : t.Awaits k (.driving o P (.calling i next)) below)
    (hx : P.inst = x) (hnests : P.definition.Nests i s)
    (hover : (e.after (as ++ bs)).isUnderway k = false)
    (hanswers : e.answers k (as ++ bs) = [none] ∨ e.answers k (as ++ bs) = [some (.settled v)])
    {leaves : Context → Context} {outcome : Outcome}
    (hconclude : ∀ c, s.conclude c (.settled v) = .finish (leaves c) outcome) :
    ∃ b₁ b₂ φ q st run, bs = b₁ ++ b₂ ∧ some (.settled v) ∈ e.answers k (as ++ b₁) ∧
      (e.after as).saga x b₁ = [] ∧
      (e.after (as ++ b₁)).saga x b₂ = (P, .returned i outcome) :: run ∧
      Shifts D x (some ({ P with context := leaves P.context }, φ)) q run st
        ((e.after (as ++ bs)).position x) ∧ (e.after (as ++ bs)).Bears x st ∧
      ∃ now, (∃ plan, Plan.ofOutcome P.definition (leaves P.context) i now outcome = .ok plan ∧
          φ = .acting plan) ∨
        ∃ fault, Plan.ofOutcome P.definition (leaves P.context) i now outcome = .error fault ∧
          φ = .halting fault := by
  obtain ⟨step, hstep, hstart⟩ := hnests
  have hnext : next = s.conclude P.context := by
    obtain ⟨above, g, hframes, -⟩ := hawaits
    have hframe : .driving o P (.calling i next) ∈ t.frames := by simp [hframes]
    obtain ⟨context, r, q, step', hstep', hleaves⟩ :=
      h.course.new.isLaunched as t ht _ hframe
    obtain rfl : step = step' := Option.some.inj (hstep.symm.trans hstep')
    rw [hstart] at hleaves
    exact (Nested.launch_of_leaves hleaves).2
  subst hnext
  obtain ⟨b₁, b₂, rfl, htold, hdoing, hsilent⟩ := h.resumes ht hawaits hx hover hanswers
  rw [hconclude] at hdoing
  obtain ⟨φ, q, st, run, hsaga, hshifts, hst, hplan⟩ := h.later.returns hx hdoing
  rw [List.append_assoc] at hshifts hst
  exact ⟨b₁, b₂, φ, q, st, run, rfl, htold, hsilent, hsaga, hshifts, hst, hplan⟩

namespace LastRun

/-- What is done for the instance from some time on belongs to the last run if no run begins. -/
theorem run_eq_append (h : e.LastRun D x c p run as) {before after : List Act}
    (has : as = before ++ after)
    (honce : ∀ d ∈ (e.after before).saga x after, d.2.isStart = false) :
    ∃ run₁, run = run₁ ++ (e.after before).saga x after := by
  obtain ⟨l, hl⟩ := h.began
  rw [has, saga_append] at hl
  obtain ⟨m, -, hrest⟩ | ⟨m, -, hrest⟩ := List.append_eq_append_iff.1 hl
  · cases honce (c, .started p) (by rw [hrest]; exact List.mem_append_right _ List.mem_cons_self)
  · cases m with
    | nil =>
      have hmem : (c, Deed.started p) ∈ (e.after before).saga x after := by
        rw [← List.nil_append ((e.after before).saga x after), ← hrest]
        exact List.mem_cons_self
      cases honce _ hmem
    | cons d m => exact ⟨m, (List.cons.inj hrest).2⟩

/-- **A nested step whose call has been told returns what it makes of that**, and its plan comes
next. -/
theorem resumes (h : e.LastRun D x c p run as) (hrest : (e.after as).IsAtRest)
    (hnests : e.Nests x i s k as) (hover : (e.after as).isUnderway k = false)
    (hanswers : e.answers k as = [none] ∨ e.answers k as = [some (.settled v)])
    {leaves : Context → Context} {outcome : Outcome}
    (hconclude : ∀ c, s.conclude c (.settled v) = .finish (leaves c) outcome) :
    ∃ P run₁ run₂ φ q st, run = run₁ ++ (P, .returned i outcome) :: run₂ ∧
      Shifts D x (some ({ P with context := leaves P.context }, φ)) q run₂ st
        ((e.after as).position x) ∧ (e.after as).Bears x st ∧
      ∃ now, (∃ plan, Plan.ofOutcome P.definition (leaves P.context) i now outcome = .ok plan ∧
          φ = .acting plan) ∨
        ∃ fault, Plan.ofOutcome P.definition (leaves P.context) i now outcome = .error fault ∧
          φ = .halting fault := by
  obtain ⟨before, after, rfl, honce, t, ht, o, P, next, below, hawaits, hx, hstep⟩ := hnests
  obtain ⟨run₁, hrun⟩ := h.run_eq_append rfl honce
  have hspell : e.Spell D x before after :=
    ⟨h.course, hrest, fun d hd => h.calm d (hrun ▸ List.mem_append_right _ hd)⟩
  obtain ⟨b₁, b₂, φ, q, st, run₂, rfl, -, hsilent, hreturned, hshifts, hst, hplan⟩ :=
    hspell.returns_nested ht hawaits hx hstep hover hanswers hconclude
  refine ⟨P, run₁, run₂, φ, q, st, ?_, hshifts, hst, hplan⟩
  rw [hrun, saga_append, hsilent, List.nil_append, ← after_append, hreturned]

/-! ## How a run ends, and what its caller is told -/

variable {T : List Deed}

/-- Who waits for a run that failed is told its cause. -/
theorem told_failing (h : e.LastRun D x c p run as) (hrest : (e.after as).IsAtRest)
    (hk : c.completion = some k) {cause : Cause}
    (hmem : .returned i (.failure cause) ∈ run.map Prod.snd) :
    (e.after as).isUnderway k = false ∧ (e.answers k as = [none] ∨
      e.answers k as = [some (.settled (.error (.stepFailed cause)))]) := by
  obtain ⟨⟨T, hrun, hT⟩, -, hthrough⟩ := h.failed hrest hmem
  have howed : Deed.owed (Deed.failing x D.name i cause) =
      [.executed i, .returned i (.failure cause), .settled (.error (.stepFailed cause))] := rfl
  refine h.told hrest hk hthrough hrun hT ?_ ?_ ?_ ?_
  · rw [howed]
    exact Deed.answers_failed i cause
  all_goals simp [howed]

/-- Who waits for a run that parked is told that it waits. -/
theorem told_parking (h : e.LastRun D x c p run as) (hrest : (e.after as).IsAtRest)
    (hk : c.completion = some k) {message : String}
    (hmem : .returned i (.wait message) ∈ run.map Prod.snd) :
    (e.after as).isUnderway k = false ∧ (e.answers k as = [none] ∨
      e.answers k as = [some (.settled (.ok ⟨x, .waiting, none⟩))]) := by
  obtain ⟨⟨T, hrun, hT⟩, -, hthrough⟩ := h.parked hrest hmem
  have howed : Deed.owed (Deed.parking x D.name i message) =
      [.executed i, .returned i (.wait message), .saved i,
        .published ⟨x, D.name, .waiting i message⟩, .settled (.ok ⟨x, .waiting, none⟩)] := rfl
  refine h.told hrest hk hthrough hrun hT ?_ ?_ ?_ ?_
  · rw [howed]
    exact Deed.answers_waiting i message x D.name
  · rw [howed]
    intro j message' hj
    simp at hj ⊢
    exact hj.1
  all_goals simp [howed]

/-- Who waits for a run that completed is told so, and the output. -/
theorem told_completing (h : e.LastRun D x c p run as) (hrest : (e.after as).IsAtRest)
    (hk : c.completion = some k) {output : Option Json}
    (hmem : .passed output ∈ run.map Prod.snd) :
    (e.after as).isUnderway k = false ∧ (e.answers k as = [none] ∨
      e.answers k as = [some (.settled (.ok ⟨x, .completed, output⟩))]) := by
  obtain ⟨⟨T, hrun, hT⟩, -, hthrough⟩ := h.completed hrest hmem
  have howed : Deed.owed (Deed.completing x D.name output) =
      [.passed output, .published ⟨x, D.name, .completed⟩,
        .settled (.ok ⟨x, .completed, output⟩)] := rfl
  refine h.told hrest hk hthrough hrun hT ?_ ?_ ?_ ?_
  · rw [howed]
    exact Deed.answers_completed x D.name output
  all_goals simp [howed]

end LastRun

end Engine

/-! ## Ladders -/

/-- An instance on a ladder: its last run, and the nested step that leads to the next instance. -/
structure Rung where
  inst : String
  definition : Definition
  /-- The chain as the run began with it, and the position at which it began. -/
  chain : Chain
  start : Nat
  /-- What has been done in the run. -/
  run : List (Chain × Deed)
  index : Nat
  nested : Nested

namespace Rung

/-- What has been done in the run of a rung. -/
def deeds (r : Rung) : List Deed := r.run.map Prod.snd

/-- The run of a rung ended with these deeds, after nothing but complete rounds. -/
def EndedBy (r : Rung) (ds : List Deed) : Prop :=
  ∃ T, r.deeds = T ++ ds ∧ ∀ d ∈ T, d.IsOnTheWay

end Rung

namespace Engine

/-- Whoever waits for a rung and is not cut off is told the settlement. -/
def Tells (e : Engine) (r : Rung) (as : List Act) (s : Settlement) : Prop :=
  ∀ k, r.chain.completion = some k → none ∉ e.answers k as → e.answers k as = [some (.settled s)]

/-- Since the run of a rung began, delays have been published about its instance, and then the news,
once. -/
def Publishes (e : Engine) (r : Rung) (as : List Act) (news : News) : Prop :=
  ∃ before after delays, as = before ++ after ∧
    (∃ l, e.saga r.inst before = l ++ [(r.chain, .started r.start)]) ∧
    (e.after before).saga r.inst after = r.run ∧
    (e.after as).publicationsOf r.inst = (e.after before).publicationsOf r.inst ++
      (delays ++ [⟨r.inst, r.definition.name, news⟩]) ∧
    ∀ n ∈ delays, n.topic = .delayed

/-- The last run of each instance, but for the last one, was within a nested step that waits for the
last run of the next instance. Nothing befalls any of them. -/
structure Ladder (e : Engine) (n : Nat) (W : Nat → Rung) (as : List Act) : Prop where
  last : ∀ k ≤ n, e.LastRun (W k).definition (W k).inst (W k).chain (W k).start (W k).run as
  nests : ∀ k < n, ∃ κ, (W (k + 1)).chain.completion = some κ ∧
    e.Nests (W k).inst (W k).index (W k).nested κ as
  waits : ∀ k < n, (W k).nested.wait = true

namespace Ladder

variable {e : Engine} {n k : Nat} {W : Nat → Rung} {as : List Act}

/-- How a run ended has been published, once, and nothing but delays before it. -/
theorem publishes (h : e.Ladder n W as) (hk : k ≤ n) {ds : List Deed} {news : News}
    (hended : (W k).EndedBy ds)
    (hds : Deed.announcements ds = [⟨(W k).inst, (W k).definition.name, news⟩]) :
    e.Publishes (W k) as news := by
  obtain ⟨T, hT, hway⟩ := hended
  obtain ⟨before, after, has, hbegan, hrun, hjournal⟩ := (h.last k hk).publicationsOf
  refine ⟨before, after, Deed.announcements T, has, hbegan, hrun, ?_,
    Deed.topic_of_isOnTheWay hway⟩
  rw [hjournal, ← Rung.deeds, hT, Deed.announcements_append, hds]

/-- A failure climbs by one rung. -/
theorem failure_climbs (h : e.Ladder n W as) (hrest : (e.after as).IsAtRest) (hk : k < n)
    {cause : Cause}
    (hmem : .returned (W (k + 1)).index (.failure cause) ∈ (W (k + 1)).deeds) :
    .returned (W k).index (.failure cause) ∈ (W k).deeds := by
  obtain ⟨κ, hκ, hnests⟩ := h.nests k hk
  obtain ⟨hover, hanswers⟩ := (h.last (k + 1) hk).told_failing hrest hκ hmem
  have hconclude : ∀ c, (W k).nested.conclude c (.settled (.error (.stepFailed cause))) =
      .finish (id c) (.failure cause) := fun c => rfl
  obtain ⟨P, run₁, run₂, φ, q, st, hrun, -⟩ :=
    (h.last k hk.le).resumes hrest hnests hover hanswers hconclude
  rw [Rung.deeds, hrun, List.map_append]
  exact List.mem_append_right _ List.mem_cons_self

/-- That an instance waits climbs by one rung. -/
theorem wait_climbs (h : e.Ladder n W as) (hrest : (e.after as).IsAtRest) (hk : k < n)
    {message : String}
    (hmem : .returned (W (k + 1)).index (.wait message) ∈ (W (k + 1)).deeds) :
    .returned (W k).index (.wait ((W k).nested.pending (W (k + 1)).inst)) ∈ (W k).deeds := by
  obtain ⟨κ, hκ, hnests⟩ := h.nests k hk
  obtain ⟨hover, hanswers⟩ := (h.last (k + 1) hk).told_parking hrest hκ hmem
  have hconclude : ∀ c, (W k).nested.conclude c
      (.settled (.ok ⟨(W (k + 1)).inst, .waiting, none⟩)) =
        .finish (id c) (.wait ((W k).nested.pending (W (k + 1)).inst)) :=
    fun c => Nested.conclude_waiting (h.waits k hk) c _
  obtain ⟨P, run₁, run₂, φ, q, st, hrun, -⟩ :=
    (h.last k hk.le).resumes hrest hnests hover hanswers hconclude
  rw [Rung.deeds, hrun, List.map_append]
  exact List.mem_append_right _ List.mem_cons_self

/-- **That an instance has completed lets the one before it go on**, with its output. -/
theorem completion_climbs (h : e.Ladder n W as) (hrest : (e.after as).IsAtRest) (hk : k < n)
    {output : Option Json} (hmem : .passed output ∈ (W (k + 1)).deeds) :
    ∃ P P' before after, (W k).run =
        before ++ (P, .returned (W k).index .proceed) :: (P', .saved ((W k).index + 1)) :: after ∧
      P'.context = P.context.adopt output := by
  obtain ⟨κ, hκ, hnests⟩ := h.nests k hk
  obtain ⟨hover, hanswers⟩ := (h.last (k + 1) hk).told_completing hrest hκ hmem
  have hlast := h.last k hk.le
  obtain ⟨P, run₁, run₂, φ, q, st, hrun, hshifts, hst, now, hplan⟩ :=
    hlast.resumes hrest hnests hover hanswers
      fun c => Nested.conclude_completed (h.waits k hk) c _ output
  obtain ⟨plan, hplan, rfl⟩ | ⟨fault, hfault, -⟩ := hplan
  · cases hplan
    have hcalm : ∀ d ∈ run₂, d.2.isMishap = false := fun d hd => by
      refine hlast.calm d ?_
      rw [hrun]
      exact List.mem_append_right _ (List.mem_cons_of_mem _ hd)
    obtain ⟨-, run₃, rfl, -⟩ :=
      hshifts.performed_one hcalm (hlast.course.new.isStill_of_isAtRest hrest hst)
    exact ⟨P, _, run₁, run₃, hrun, rfl⟩
  · cases hfault

/-- **How a nested run ends climbs through any depth.** Let each instance but the last one be within
a nested step that waits for the next one, delays or no delays, let nothing befall any of them, and
let nothing move any more.

If a step of the last instance has failed, every instance has failed of the same cause at the step
at which it waited: that is the end of its run, before which there was nothing but complete rounds;
since the run began, the journal says nothing about the instance but delays, and then once that it
has failed at that step of that cause; its position stays at that step; and whoever waits for it is
told that cause.

If an instance has completed, the step of the one before it goes on, with the output of the nested
instance as its own, or with its own if there is none.

If a step of the last instance has asked to wait, every instance is parked at the step at which it
waited, the journal says so once, and whoever waits for it is told so. -/
theorem climbs (h : e.Ladder n W as) (hrest : (e.after as).IsAtRest) :
    (∀ cause, .returned (W n).index (.failure cause) ∈ (W n).deeds → ∀ k ≤ n,
      (W k).EndedBy
        (Deed.failing (W k).inst (W k).definition.name (W k).index cause) ∧
      e.Publishes (W k) as (.failed (W k).index cause) ∧
      (e.after as).position (W k).inst = (W k).index ∧
      e.Tells (W k) as (.error (.stepFailed cause))) ∧
    (∀ k < n, ∀ output, .passed output ∈ (W (k + 1)).deeds →
      ∃ P P' before after, (W k).run =
          before ++ (P, .returned (W k).index .proceed) :: (P', .saved ((W k).index + 1)) :: after ∧
        P'.context = P.context.adopt output) ∧
    (∀ message, .returned (W n).index (.wait message) ∈ (W n).deeds → ∀ k ≤ n,
      (∃ message, (W k).EndedBy
          (Deed.parking (W k).inst (W k).definition.name (W k).index message) ∧
        e.Publishes (W k) as (.waiting (W k).index message)) ∧
      (e.after as).position (W k).inst = (W k).index ∧
      e.Tells (W k) as (.ok ⟨(W k).inst, .waiting, none⟩)) := by
  refine ⟨fun cause hlast k hk => ?_, fun k hk output hmem => h.completion_climbs hrest hk hmem,
    fun message hlast k hk => ?_⟩
  · have hmem : .returned (W k).index (.failure cause) ∈ (W k).deeds := by
      induction hk using Nat.decreasingInduction with
      | self => exact hlast
      | of_succ k hk ih => exact h.failure_climbs hrest hk ih
    obtain ⟨hended, hposition, -⟩ := (h.last k hk).failed hrest hmem
    refine ⟨hended, h.publishes hk hended rfl, hposition, fun κ hκ hcut => ?_⟩
    obtain ⟨-, hnone | hsome⟩ := (h.last k hk).told_failing hrest hκ hmem
    · rw [hnone] at hcut
      exact absurd (List.mem_singleton_self _) hcut
    · exact hsome
  · obtain ⟨message, hmem⟩ : ∃ message, .returned (W k).index (.wait message) ∈ (W k).deeds := by
      induction hk using Nat.decreasingInduction with
      | self => exact ⟨message, hlast⟩
      | of_succ k hk ih =>
        obtain ⟨message, hmem⟩ := ih
        exact ⟨_, h.wait_climbs hrest hk hmem⟩
    obtain ⟨hended, hposition, -⟩ := (h.last k hk).parked hrest hmem
    refine ⟨⟨message, hended, h.publishes hk hended rfl⟩, hposition, fun κ hκ hcut => ?_⟩
    obtain ⟨-, hnone | hsome⟩ := (h.last k hk).told_parking hrest hκ hmem
    · rw [hnone] at hcut
      exact absurd (List.mem_singleton_self _) hcut
    · exact hsome

end Ladder

end Engine

/-! ## Three instances -/

namespace ThreeLevels

/-- A step that runs an instance of a workflow and waits for it. -/
def nested (workflow inst : String) : Nested := { workflow, inst := some fun _ => .ok inst }

/-- A workflow that fails after a while. -/
def leaf : Definition :=
  ⟨"leaf", [.delay .microsecond, .deciding fun _ => .failure (.plain "broken")]⟩

def middle : Definition := ⟨"middle", [(nested "leaf" "c").step]⟩

def top : Definition := ⟨"top", [(nested "middle" "b").step]⟩

def registry : Registry :=
  ⟨((Table.empty.put "leaf" leaf).put "middle" middle).put "top" top⟩

def engine : Engine := { scheduler := { timers := { start := ⟨0⟩ } }, identity := fun _ => "" }

/-- Somebody waits for the top instance: down to the delay of the leaf. -/
def down : List Act :=
  [.addRunner registry .empty,
    .run ⟨0⟩ (.root 0) { workflow := "top", inst := some "a", wait := true }] ++
    .replicate 14 (.advance 2)

/-- The continuation of the leaf, and the way up. -/
def up : List Act :=
  .advance 2 :: .wake 0 :: .replicate 5 (.advance 7) ++ .replicate 12 (.advance 2)

def acts : List Act := down ++ up

/-- The run of an instance that began at the first position. -/
def rung (inst : String) (definition : Definition) (k index : Nat) (nested : Nested) : Rung where
  inst := inst
  definition := definition
  chain := {
    definition
    context := {
      inst, workflow := definition.name, services := Services.empty.insert .runner ⟨0⟩ }
    dispatcher := ⟨1⟩
    completion := some ⟨k⟩
    number := k }
  start := 0
  run := (engine.saga inst acts).tail
  index := index
  nested := nested

def rungs : Nat → Rung
  | 0 => rung "a" top 3 0 (nested "middle" "b")
  | 1 => rung "b" middle 4 0 (nested "leaf" "c")
  | _ => rung "c" leaf 5 1 (nested "leaf" "c")

theorem meets_acts {S : Standard} (h : ∀ d ∈ [leaf, middle, top], S.definition d) :
    ∀ a ∈ acts, a.Meets S := by
  have hregistry : registry.Meets S :=
    ((Registry.meets_empty.put _ (h leaf (by simp))).put _ (h middle (by simp))).put _
      (h top (by simp))
  exact Act.forall_meets hregistry rfl

theorem isLoyal : ∀ d ∈ [leaf, middle, top], d.IsLoyal := by
  intro d hd s hs
  have hcases : s ∈ leaf.steps ∨ s ∈ middle.steps ∨ s ∈ top.steps := by
    simp only [List.mem_cons, List.not_mem_nil, or_false] at hd
    obtain rfl | rfl | rfl := hd
    exacts [.inl hs, .inr (.inl hs), .inr (.inr hs)]
  simp only [leaf, middle, top, List.mem_cons, List.not_mem_nil, or_false] at hcases
  obtain (rfl | rfl) | rfl | rfl := hcases
  · exact Step.isLoyal_deciding _
  · exact Step.isLoyal_deciding _
  · exact Nested.isLoyal_nested _
  · exact Nested.isLoyal_nested _

theorem course {D : Definition} {x : String}
    (hname : ∀ d ∈ [leaf, middle, top], d.name = D.name → d = D)
    (hchains : ∀ n < acts.length + 1,
      (((engine.after (acts.take n)).chains.filter fun c => c.inst == x).map fun c =>
        c.definition.name) ∈ [[], [D.name]]) : engine.Course D x acts :=
  .of_among ⟨rfl, rfl, rfl, rfl⟩ (meets_acts isLoyal) (meets_acts fun _ hd => hd) hname hchains

theorem ladder : engine.Ladder 2 rungs acts := by
  refine ⟨fun k hk => ?_, fun k hk => ?_, fun k hk => ?_⟩
  · obtain rfl | rfl | rfl : k = 0 ∨ k = 1 ∨ k = 2 := by omega
    all_goals
      exact ⟨course (by simp [leaf, middle, top, rungs, rung]) (by decide +kernel), ⟨[], rfl⟩,
        by decide +kernel, by decide +kernel⟩
  · obtain rfl | rfl : k = 0 ∨ k = 1 := by omega
    · exact ⟨⟨4⟩, rfl, down, up, rfl, by decide +kernel, _, List.mem_cons_self, _, _, _, _,
        ⟨[_], _, rfl, rfl⟩, rfl, _, rfl, rfl⟩
    · exact ⟨⟨5⟩, rfl, down, up, rfl, by decide +kernel, _, List.mem_cons_self, _, _, _, _,
        ⟨[], _, rfl, rfl⟩, rfl, _, rfl, rfl⟩
  · obtain rfl | rfl : k = 0 ∨ k = 1 := by omega
    all_goals rfl

/-- The cause climbs through both nested steps, past the delay, and is published once for each
instance. -/
theorem told_broken :
    .returned 1 (.failure (.plain "broken")) ∈ (rungs 2).deeds ∧
      (∀ k ≤ 2, engine.Publishes (rungs k) acts (.failed (rungs k).index (.plain "broken"))) ∧
      (engine.after acts).publications.map Notice.topic = [.delayed, .failed, .failed, .failed] ∧
      engine.answers ⟨3⟩ acts = [some (.settled (.error (.stepFailed (.plain "broken"))))] := by
  have hrest : (engine.after acts).IsAtRest := Engine.isAtRest_of_isEmpty (by decide +kernel)
  have hbroken : .returned 1 (.failure (.plain "broken")) ∈ (rungs 2).deeds :=
    List.mem_of_getElem? (i := 6) rfl
  obtain ⟨hfailure, -, -⟩ := ladder.climbs hrest
  obtain ⟨-, -, -, htells⟩ := hfailure _ hbroken 0 (Nat.zero_le 2)
  refine ⟨hbroken, fun k hk => ?_, by decide +kernel,
    htells ⟨3⟩ rfl (Engine.none_notMem_answers (by decide +kernel))⟩
  obtain ⟨-, hpublishes, -⟩ := hfailure _ hbroken k hk
  exact hpublishes

end ThreeLevels

end DurableFlow
