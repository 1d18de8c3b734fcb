import DurableFlow.Proofs.NestedRuns.UnawaitedCalls
import DurableFlow.Proofs.Histories.StoredRecords

/-!
# Steps that do not wait for their nested runs

A step that starts a nested run and does not wait for it goes on with the same context whatever the
run comes to (`Nested.endsWith_start`, `NestedChoice.endsWith_execute`). Such steps, and those that
start nothing at all, have habits: what they make of a context is known beforehand.

Main statement: in an engine, whatever else happens in it, the steps of an instance keep to their
habits, as long as a runner is there when they look for one and the calls of their nested runs
return results (`Engine.Sound.follows_act`).
-/

namespace DurableFlow

/-! ## Steps with habits -/

/-- The behaviour comes to its end with the context and the outcome, if a runner is there when it
looks for one; and if it launches a nested run, it goes on whatever result that returns. -/
def Behaviour.EndsWith : Behaviour → Context × Outcome → Prop
  | finish c o, r => (c, o) = r
  | panic _ _, _ => False
  | emit _ b, r | cancel b, r | await _ _ b, r => b.EndsWith r
  | locate _ next, r => (next true).EndsWith r
  | launch _ _ _ next, r =>
    r.2 = .proceed ∧ ∀ result, next (.settled (.ok result)) = .finish r.1 .proceed

/-- A behaviour comes to one end. -/
theorem Behaviour.EndsWith.unique {b : Behaviour} {r r' : Context × Outcome} (h : b.EndsWith r)
    (h' : b.EndsWith r') : r = r' := by
  induction b with
  | finish c o => exact Eq.trans (Eq.symm h) h'
  | panic c p => exact h.elim
  | emit x b ih => exact ih h h'
  | cancel b ih => exact ih h h'
  | await c s b ih => exact ih h h'
  | locate r k ih => exact ih true h h'
  | launch c r q k ih =>
    obtain ⟨hproceed, hnext⟩ := h
    obtain ⟨hproceed', hnext'⟩ := h'
    have hcontext := (hnext ⟨"", .completed, none⟩).symm.trans (hnext' ⟨"", .completed, none⟩)
    exact Prod.ext (Behaviour.finish.inj hcontext).1 (hproceed.trans hproceed'.symm)

/-- What some steps make of every context. -/
abbrev Habits := Nat → Option (Context → Context × Outcome)

/-- The steps of a definition have these habits. -/
def Definition.Follows (d : Definition) (habits : Habits) : Prop :=
  ∀ i, ∀ f ∈ habits i, ∃ s, d.step? i = some s ∧ ∀ c, (s.execute c).EndsWith (f c)

/-- What a step says that does not wait for its nested run: it goes on if there is one to start. -/
def Nested.outcome (n : Nested) (c : Context) : Outcome :=
  match c.services.get? .runner, n.request c with
  | none, _ => .failure (.plain ("no workflow runner available to start " ++ ticked n.workflow))
  | some _, .ok _ => .proceed
  | some _, .error p => .failure (.panicked p)

/-- What a choice says that does not wait for its nested run. -/
def NestedChoice.outcome (n : NestedChoice) (c : Context) : Outcome :=
  match n.condition c, n.no with
  | .error r, _ => .failure r.cause
  | .ok true, _ => (n.nested n.yes).outcome c
  | .ok false, some no => (n.nested no).outcome c
  | .ok false, none => .proceed

/-- A step that starts a nested run and does not wait for it, and what it says on a context. -/
inductive Step.IsAloof : Step → (Context → Outcome) → Prop
  | nested {n : Nested} {label : Option String} (h : n.wait = false) :
      IsAloof { n.step with label } n.outcome
  | choice {n : NestedChoice} {label : Option String} (h : n.wait = false) :
      IsAloof { n.step with label } n.outcome

theorem Nested.endsWith_start {n : Nested} (h : n.wait = false) (c : Context) :
    (n.start c).EndsWith (c, n.outcome c) := by
  unfold start outcome
  cases c.services.get? .runner with
  | none => rfl
  | some runner =>
    cases n.request c with
    | error p => simp [Behaviour.EndsWith]
    | ok q => simp [Behaviour.EndsWith, conclude, h]

/-- **A step that does not wait for its nested run leaves its context as it is**, and goes on
whatever result the run returns. -/
theorem Step.IsAloof.endsWith {s : Step} {outcome : Context → Outcome} (h : s.IsAloof outcome)
    (c : Context) : (s.execute c).EndsWith (c, outcome c) := by
  cases h with
  | nested h => exact Nested.endsWith_start h c
  | @choice n _ h =>
    simp only [NestedChoice.step, NestedChoice.outcome]
    cases n.condition c with
    | error r => rfl
    | ok b =>
      cases b with
      | true => exact Nested.endsWith_start h c
      | false =>
        cases n.no with
        | none => rfl
        | some no => exact Nested.endsWith_start h c

/-- A step that does not wait for its nested run has the habit of leaving its context as it is. -/
theorem Step.IsAloof.habit_eq {s : Step} {outcome : Context → Outcome} (h : s.IsAloof outcome)
    {d : Definition} {habits : Habits} (hd : d.Follows habits) {i : Nat} (hs : d.step? i = some s)
    {f : Context → Context × Outcome} (hf : habits i = some f) (c : Context) :
    f c = (c, outcome c) := by
  obtain ⟨s', hs', hends⟩ := hd i f hf
  cases hs.symm.trans hs'
  exact (hends c).unique (h.endsWith c)

/-! ## Frames of an instance -/

section

variable (habits : Habits) (x : String)

/-- What is left of a step of the instance ends as it is the habit of the step. -/
def Frame.Follows : Frame → Prop
  | .driving _ c (.inside i b) => c.inst = x → ∀ f ∈ habits i, b.EndsWith (f c.context)
  | .driving _ c (.calling i next) => c.inst = x → ∀ f ∈ habits i, (f c.context).2 = .proceed ∧
      ∀ result, next (.settled (.ok result)) = .finish (f c.context).1 .proceed
  | _ => True

end

/-- Whether a call has returned a result, neither an error nor a panic. -/
def Reply.isResult : Reply → Bool
  | .settled (.ok _) => true
  | _ => false

theorem Reply.eq_of_isResult {reply : Reply} (h : reply.isResult = true) :
    ∃ result, reply = .settled (.ok result) := by
  cases reply with
  | settled s =>
    cases s with
    | ok result => exact ⟨result, rfl⟩
    | error fault => cases h
  | panicked p => cases h

namespace Engine

variable {S : Standard} {habits : Habits} {D : Definition} {x : String} {e m : Engine}
  {t t' : Task} {f : Frame} {below : List Frame} {o : Origin} {c : Chain} {i : Nat} {a : Act}

/-! ## Moves -/

/-- If the innermost frame is a step of the instance that has a habit and looks for a runner, one is
there. -/
def Finds (habits : Habits) (x : String) (e : Engine) (t : Task) : Prop :=
  match t.frames with
  | .driving _ c (.inside i (.locate r _)) :: _ =>
    c.inst = x → (habits i).isSome = true → e.isAlive r = true
  | _ => True

/-- If a step of the instance that has a habit is handed something, it is a result. -/
def Hands (habits : Habits) (x : String) (e : Engine) (t : Task) : Prop :=
  match t.frames with
  | _ :: .driving _ c (.calling i _) :: _ =>
    c.inst = x → (habits i).isSome = true → ∀ reply ∈ e.handed? t, reply.isResult = true
  | _ => True

/-- Nothing stands in the way of the habits of steps of the instance. -/
structure Obliges (habits : Habits) (x : String) (e : Engine) (t : Task) : Prop where
  finds : e.Finds habits x t
  hands : e.Hands habits x t

instance (t : Task) : Decidable (e.Finds habits x t) := by
  cases t with
  | mk number token parked frames =>
    unfold Finds
    dsimp only
    split <;> infer_instance

instance (t : Task) : Decidable (e.Hands habits x t) := by
  cases t with
  | mk number token parked frames =>
    unfold Hands
    dsimp only
    split <;> infer_instance

/-- What becomes of a frame leaves what is left of steps as it is their habit. -/
theorem follows_becomes {fs : List Frame} (hD : D.Follows habits) (hf : f.Follows habits x)
    (hdefinition : ∀ o c stage, f = .driving o c stage → c.inst = x → c.definition = D)
    (halive : ∀ o c i r next, f = .driving o c (.inside i (.locate r next)) → c.inst = x →
      (habits i).isSome = true → e.isAlive r = true) (hfs : f.Becomes e fs) :
    ∀ g ∈ fs, g.Follows habits x := by
  cases hfs with
  | stay => exact List.forall_mem_singleton.2 hf
  | start => exact List.forall_mem_singleton.2 trivial
  | @execute o c i s hs =>
    refine List.forall_mem_singleton.2 fun hx f hhabit => ?_
    obtain ⟨s', hs', hends⟩ := hD i f hhabit
    rw [hdefinition o c _ rfl hx, hs'] at hs
    cases hs
    exact hends _
  | goOn hgo =>
    refine List.forall_mem_singleton.2 ?_
    cases hgo with
    | locate =>
      intro hx f hhabit
      rw [halive _ _ _ _ _ rfl hx (Option.isSome_of_mem hhabit)]
      exact hf hx f hhabit
    | _ => exact hf
  | launch => exact List.forall_mem_cons.2 ⟨trivial, List.forall_mem_singleton.2 hf⟩
  | @turn o c c' stage stage' _ hquiet =>
    refine List.forall_mem_singleton.2 ?_
    cases stage' with
    | inside i b => cases hquiet
    | calling i next => cases hquiet
    | _ => trivial
  | receive => exact List.forall_mem_singleton.2 trivial

/-- **A move leaves what is left of steps as it is their habit.** -/
theorem follows_restacks {fs : List Frame} (hD : D.Follows habits)
    (hframes : ∀ f ∈ t.frames, f.Follows habits x)
    (hdefinition : ∀ o c stage, .driving o c stage ∈ t.frames → c.inst = x → c.definition = D)
    (hobliges : e.Obliges habits x t) (hfs : e.Restacks t fs) :
    ∀ g ∈ fs, g.Follows habits x := by
  cases hfs with
  | abandon => exact List.forall_mem_singleton.2 trivial
  | look => exact hframes
  | @go f fs below ht hbecomes =>
    rw [ht] at hframes hdefinition
    obtain ⟨hf, hbelow⟩ := List.forall_mem_cons.1 hframes
    refine List.forall_mem_append.2 ⟨follows_becomes hD hf (fun o c stage heq => ?_)
      (fun o c i r next heq => ?_) hbecomes, hbelow⟩
    · exact hdefinition o c stage (heq ▸ List.mem_cons_self)
    · have hfinds := hobliges.finds
      rw [Finds, ht, heq] at hfinds
      exact hfinds
  | @hand f o c i next below reply ht hreply _ =>
    rw [ht] at hframes
    obtain ⟨hstep, hbelow⟩ := List.forall_mem_cons.1 (List.forall_mem_cons.1 hframes).2
    refine List.forall_mem_cons.2 ⟨fun hx f hhabit => ?_, hbelow⟩
    have hhands := hobliges.hands
    rw [Hands, ht] at hhands
    obtain ⟨result, rfl⟩ := Reply.eq_of_isResult
      (hhands hx (Option.isSome_of_mem hhabit) reply hreply)
    obtain ⟨hproceed, hnext⟩ := hstep hx f hhabit
    rw [hnext result]
    exact Prod.ext rfl hproceed.symm

/-! ## Histories -/

/-- What is left of the steps of the instance ends as it is their habit. -/
def Follows (habits : Habits) (x : String) (e : Engine) : Prop :=
  ∀ t ∈ e.tasks, ∀ f ∈ t.frames, f.Follows habits x

theorem mem_chains_of_frame (ht : t ∈ m.tasks) {stage : Stage}
    (hf : .driving o c stage ∈ t.frames) : c ∈ m.chains := by
  have hframe : .driving o c stage ∈ m.frames := List.mem_flatMap.2 ⟨t, ht, hf⟩
  exact List.mem_append_left _ (List.mem_filterMap.2 ⟨_, hframe, rfl⟩)

theorem Sound.follows_act (h : m.Sound S) (hD : D.Follows habits) (hhosts : m.Hosts D x)
    (hobliges : ∀ n t, a = .advance n → m.task? n = some t → m.Obliges habits x t)
    (hfollows : m.Follows habits x) : (m.act a).Follows habits x :=
  h.frames_act (P := fun fs => ∀ f ∈ fs, f.Follows habits x)
    (fun _ _ _ => List.forall_mem_singleton.2 trivial)
    (fun _ _ => List.forall_mem_singleton.2 trivial)
    (fun t ht ha _ hfs => follows_restacks hD (hfollows t ht)
      (fun _ c _ hf hx => hhosts.definition c (mem_chains_of_frame ht hf) hx)
      (hobliges t.number t ha (h.task?_of_mem ht)) hfs) hfollows

/-- **Throughout a history, the steps of an instance keep to their habits**, if nothing stands in the
way. -/
theorem Course.keeps_habits {as : List Act} (h : e.Course D x as) (hD : D.Follows habits)
    (hobliges : ∀ before n, before ++ [.advance n] <+: as → ∀ t,
      (e.after before).task? n = some t → (e.after before).Obliges habits x t) :
    (e.after as).Follows habits x := by
  induction as using List.reverseRecOn with
  | nil =>
    rw [after_nil, Follows, h.new.tasks]
    exact fun t ht => (List.not_mem_nil ht).elim
  | append_singleton as a ih =>
    have hbefore := ih h.left fun before n hle =>
      hobliges before n (hle.trans (List.prefix_append _ _))
    have hsound : (e.after as).Sound .any := (h.new.sound .any).after_any as
    rw [after_concat]
    refine hsound.follows_act hD (h.hosts as (List.prefix_append _ _)) (fun n t ha ht => ?_) hbefore
    subst ha
    exact hobliges as n (List.prefix_refl _) t ht

variable {f : Context → Context × Outcome}

/-- **A step returns as it is its habit.** -/
theorem Follows.returned (h : m.Follows habits x) (hsound : m.Sound .loyal) {outcome : Outcome}
    (hd : (c, .returned i outcome) ∈ m.deeds a) (hx : c.inst = x) (hhabit : habits i = some f) :
    outcome = (f c.context).2 ∧ (f c.context).1.inst = x ∧
      { c with context := (f c.context).1 } ∈ (m.act a).chains := by
  obtain ⟨t, ht, rfl, hp, origin, context, below, hframes⟩ := task_of_returned hd
  have hmem := (task?_eq_some ht).1
  have hframe : Frame.Follows habits x (.driving origin c (.inside i (.finish context outcome))) :=
    h t hmem _ (hframes ▸ List.mem_cons_self)
  obtain ⟨hloyal, hreturns⟩ : c.definition.IsLoyal ∧ c.definition.Returns i c.context outcome context :=
    (hsound.tasks t hmem).frames (.driving origin c (.inside i (.finish context outcome)))
      (hframes ▸ List.mem_cons_self)
  rw [← show (context, outcome) = f c.context from hframe hx f hhabit]
  refine ⟨rfl, (hloyal.inst_eq hreturns).trans hx, ?_⟩
  obtain ⟨stage, hmove⟩ : ∃ stage, m.move t =
      .on m (t.doing (.driving origin { c with context } stage :: below)) := by
    simp only [move_driving hp hframes, moveDriving, moveInside]
    cases Plan.ofOutcome c.definition context i m.now outcome with
    | ok plan => exact ⟨_, rfl⟩
    | error fault => exact ⟨_, rfl⟩
  exact mem_chains_of_frame (hsound.mem_tasks_advance hmem hmove).2 List.mem_cons_self

/-- A step with a habit raises no panic. -/
theorem Follows.habit_of_panicked (h : m.Follows habits x) (hd : (c, .panicked) ∈ m.deeds a)
    (hx : c.inst = x) : ∃ t ∈ m.tasks, ∃ o i context p below,
      t.frames = .driving o c (.inside i (.panic context p)) :: below ∧ habits i = none := by
  obtain ⟨y, hfinishes⟩ := finishes_of_isLast hd rfl
  cases hfinishes with
  | @panic t o i context payload below ht hp hframes =>
    refine ⟨t, ht, o, i, context, payload, below, hframes, ?_⟩
    have hframe : Frame.Follows habits x (.driving o c (.inside i (.panic context payload))) :=
      h t ht _ (hframes ▸ List.mem_cons_self)
    cases hhabit : habits i with
    | none => rfl
    | some f => exact (hframe hx f hhabit).elim

/-- **Once the nested run of a step has returned something to it, the step goes on**, and leaves the
context as it is its habit: it returns when its task is next taken on. -/
theorem Sound.proceeds (h : m.Sound .any) (hfollows : m.Follows habits x) (ht : t ∈ m.tasks)
    (hp : t.parked = false) {g : Frame} {next : Reply → Behaviour}
    (hframes : t.frames = g :: .driving o c (.calling i next) :: below) (hx : c.inst = x)
    (hhabit : habits i = some f) (hhands : m.Hands habits x t) {reply : Reply}
    (hreply : m.handed? t = some reply) :
    ((m.act (.advance t.number)).deeds (.advance t.number)) = [(c, .returned i .proceed)] ∧
      ∃ u ∈ ((m.act (.advance t.number)).act (.advance t.number)).tasks, u.frames =
        .driving o { c with context := (f c.context).1 }
          (.acting ⟨[.save (i + 1)], .arrive (i + 1)⟩) :: below := by
  have hframe : Frame.Follows habits x (.driving o c (.calling i next)) :=
    hfollows t ht _ (hframes ▸ List.mem_cons_of_mem _ List.mem_cons_self)
  obtain ⟨-, hnext⟩ := hframe hx f hhabit
  rw [Hands, hframes] at hhands
  obtain ⟨result, rfl⟩ := Reply.eq_of_isResult
    (hhands hx (Option.isSome_of_mem hhabit) reply hreply)
  -- The result is handed to the step.
  obtain ⟨u, m', hmove, hnumber, hparked, hdoing⟩ : ∃ u m', m.move t = .on m' u ∧
      u.number = t.number ∧ u.parked = false ∧
      u.frames = .driving o c (.inside i (.finish (f c.context).1 .proceed)) :: below := by
    have hself : t = t.doing (g :: .driving o c (.calling i next) :: below) := by
      rw [← hframes]
      rfl
    rw [handed?, hframes] at hreply
    dsimp only at hreply
    split at hreply <;> cases hreply
    rename_i m' hmove
    refine ⟨t.doing (.driving o c (.inside i (.finish (f c.context).1 .proceed)) :: below), m', ?_,
      rfl, hp, rfl⟩
    rw [move_of_unparked hp, hself, moveTop_cons, ← hnext result, hmove]
    rfl
  obtain ⟨-, hmem⟩ := h.mem_tasks_advance ht hmove
  have hsound : (m.act (.advance t.number)).Sound .any := h.act_any _
  generalize m.act (.advance t.number) = m₁ at hmem hsound ⊢
  rw [← hnumber]
  have hreturns : m₁.move u = .on m₁ (u.doing (.driving o { c with context := (f c.context).1 }
      (.acting ⟨[.save (i + 1)], .arrive (i + 1)⟩) :: below)) := by
    rw [move, hparked, if_neg Bool.false_ne_true, moveTop, hdoing]
    rfl
  refine ⟨?_, _, (hsound.mem_tasks_advance hmem hreturns).2, rfl⟩
  simp [deeds, hsound.task?_of_mem hmem, deedsOf, hparked, hdoing, deed?]

end Engine

end DurableFlow
