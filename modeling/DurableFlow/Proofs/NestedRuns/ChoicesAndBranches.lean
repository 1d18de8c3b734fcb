import DurableFlow.Proofs.NestedRuns.UnawaitedCalls
import DurableFlow.Proofs.NestedRuns.GuardedEngines
import Mathlib.Data.List.Infix

/-!
# Choices and branches

A step that starts one of two workflows agrees with a branch over two steps that start one each. On
every context the branch does what the choice does, but for a panic, which it turns into a failure
(`Fork.guarded_choice`); and the only panic that a choice has to hand on is that of a nested run. So
as long as no nested run panics that a choice waits for, an engine whose workflows have choices and
the engine whose workflows have branches in their places go the same way through every history.

Main statement: `Engine.IsNew.choices_are_branches`.
-/

namespace DurableFlow

/-! ## Steps that panic only when a nested run does -/

/-- A behaviour that raises no panic, but may hand on that of a nested run, which does not seed its
context. -/
def Behaviour.HandsOn : Behaviour → Prop
  | finish _ _ => True
  | panic _ _ => False
  | emit _ b | cancel b | await _ _ b => b.HandsOn
  | locate _ next => ∀ alive, (next alive).HandsOn
  | launch _ _ q next => q.init = none ∧ ∀ v, (next (.settled v)).HandsOn

namespace Nested

theorem handsOn_start (n : Nested) (c : Context) : (n.start c).HandsOn := by
  unfold start
  split
  · trivial
  · intro alive
    cases alive with
    | false => trivial
    | true =>
      simp only [if_true]
      split
      · rename_i q hq
        exact ⟨init_request hq, fun v => by
          cases v with
          | error fault => trivial
          | ok result =>
            simp only [conclude]
            split
            · trivial
            · split <;> trivial⟩
      · trivial

end Nested

theorem NestedChoice.handsOn_execute (n : NestedChoice) (c : Context) :
    (n.step.execute c).HandsOn := by
  simp only [step]
  split
  · trivial
  · exact Nested.handsOn_start _ c
  · exact Nested.handsOn_start _ c
  · trivial

section

variable (p : String → Nat → Bool)

/-- The steps of a definition at such places raise no panic of their own. -/
def Definition.HandsOn (d : Definition) : Prop :=
  ∀ i s, p d.name i = true → d.step? i = some s → ∀ c, (s.execute c).HandsOn

/-- The definitions have such steps at such places. -/
def Standard.handingOn : Standard where
  definition := Definition.HandsOn p
  request _ := True
  plain _ := trivial
  launched _ _ := trivial

/-! ## Stacks of frames -/

namespace Frame

/-- What is left of a step at such a place raises no panic of its own. -/
def HandsOn : Frame → Prop
  | .driving _ c (.inside i b) => p c.definition.name i = true → b.HandsOn
  | .driving _ c (.calling i next) =>
    p c.definition.name i = true → ∀ v, (next (.settled v)).HandsOn
  | _ => True

/-- A step that waits for a nested run is not at such a place. -/
def IsElsewhere : Frame → Prop
  | .driving _ c (.calling i _) => p c.definition.name i = false
  | _ => True

/-- The request of a nested run that a step at such a place waits for does not seed its context. -/
def OpensFor (below : List Frame) : Frame → Prop
  | .opening _ q _ => q.init = none ∨ ∀ g ∈ below.head?, g.IsElsewhere p
  | _ => True

/-- A stack of frames in which the steps at such places raise no panic of their own. -/
def AllHandOn : List Frame → Prop
  | [] => True
  | f :: below => f.HandsOn p ∧ f.OpensFor p below ∧ AllHandOn below

end Frame

/-- The nested run on top is not about to panic into a step at such a place. -/
def Task.Spares (t : Task) : Prop :=
  match t.frames with
  | .driving _ _ (.inside _ (.panic _ _)) :: g :: _ => g.IsElsewhere p
  | _ => True

end

variable {p : String → Nat → Bool} {e m : Engine} {t : Task} {f : Frame} {below : List Frame}
  {o : Origin} {c : Chain} {a : Act} {as : List Act}

instance (f : Frame) : Decidable (f.IsElsewhere p) := by
  unfold Frame.IsElsewhere
  split <;> infer_instance

instance (t : Task) : Decidable (t.Spares p) := by
  unfold Task.Spares
  split <;> infer_instance

namespace Frame.AllHandOn

theorem single (h : f.HandsOn p) : AllHandOn p [f] := by
  refine ⟨h, ?_, trivial⟩
  cases f with
  | opening id q resuming =>
    refine .inr fun g hg => ?_
    cases hg
  | _ => trivial

theorem replace {g : Frame} (h : AllHandOn p (f :: below)) (hg : g.HandsOn p)
    (hopens : g.OpensFor p below) : AllHandOn p (g :: below) :=
  ⟨hg, hopens, h.2.2⟩

end Frame.AllHandOn

namespace Engine

/-- What becomes of a frame leaves steps behind that raise no panic of their own. -/
theorem allHandOn_becomes {fs : List Frame} (h : Frame.AllHandOn p (f :: below))
    (hdefinition : ∀ o c stage, f = .driving o c stage → c.definition.HandsOn p)
    (hfs : f.Becomes e fs) : Frame.AllHandOn p (fs ++ below) := by
  cases hfs with
  | stay => exact h
  | start => exact h.replace trivial trivial
  | execute hs => exact h.replace (fun hp => hdefinition _ _ _ rfl _ _ hp hs _) trivial
  | goOn hgo =>
    cases hgo with
    | locate => exact h.replace (fun hp => h.1 hp _) trivial
    | _ => exact h.replace h.1 trivial
  | @launch o c i context r q next =>
    refine ⟨trivial, ?_, h.replace (fun hp => (h.1 hp).2) trivial⟩
    cases hp : p c.definition.name i with
    | true => exact .inl (h.1 hp).1
    | false =>
      refine .inr ?_
      rintro _ ⟨⟩
      exact hp
  | @turn o c c' stage stage' _ hquiet =>
    cases stage' with
    | inside i b => cases hquiet
    | calling i next => cases hquiet
    | _ => exact h.replace trivial trivial
  | receive => exact h.replace trivial trivial

/-- **A move leaves steps behind that raise no panic**, unless a nested run panics into one. -/
theorem allHandOn_restacks {fs : List Frame} (h : Frame.AllHandOn p t.frames)
    (hsound : t.Sound (.handingOn p)) (hspares : t.Spares p) (hfs : e.Restacks t fs) :
    Frame.AllHandOn p fs := by
  cases hfs with
  | abandon => exact .single trivial
  | look => exact h
  | go ht hbecomes =>
    rw [ht] at h
    refine allHandOn_becomes h (fun o c stage hf => ?_) hbecomes
    subst hf
    exact (hsound.frames (.driving o c stage) (ht ▸ List.mem_cons_self)).1
  | @hand f o c i next below reply ht _ hpanics =>
    rw [ht] at h
    rw [Task.Spares, ht] at hspares
    obtain ⟨-, hopens, hstage, -, hbelow⟩ := h
    refine ⟨fun hp => ?_, trivial, hbelow⟩
    cases reply with
    | settled v => exact hstage hp v
    | panicked x =>
      -- The nested run panics: neither its seed does so, nor a step of it.
      have helsewhere : p c.definition.name i = false := by
        cases hpanics x rfl with
        | seed hinit => exact hopens.resolve_left hinit _ rfl
        | step => exact hspares
      cases hp.symm.trans helsewhere

/-! ## Histories -/

/-- The steps at such places raise no panic of their own. -/
structure HandsOn (p : String → Nat → Bool) (e : Engine) : Prop where
  sound : e.Sound (.handingOn p)
  tasks : ∀ t ∈ e.tasks, Frame.AllHandOn p t.frames

/-- Throughout a history, no nested run panics into a step at such a place. -/
def SparesAll (p : String → Nat → Bool) (e : Engine) (as : List Act) : Prop :=
  ∀ before, before <+: as → ∀ t ∈ (e.after before).tasks, t.Spares p

namespace HandsOn

theorem act (h : e.HandsOn p) (hspares : ∀ t ∈ e.tasks, t.Spares p) (ha : a.Meets (.handingOn p)) :
    (e.act a).HandsOn p where
  sound := (h.sound.act ha).1
  tasks := h.sound.frames_act (fun _ _ _ => .single trivial) (fun _ _ => .single trivial)
    (fun t ht _ _ hfs =>
      allHandOn_restacks (h.tasks t ht) (h.sound.tasks t ht) (hspares t ht) hfs) h.tasks

/-- **Throughout a history, steps at such places raise no panic**, if no nested run panics into
one. -/
theorem neverPanicsAt (h : e.HandsOn p) (hspares : e.SparesAll p as)
    (has : ∀ a ∈ as, a.Meets (.handingOn p)) :
    (e.after as).HandsOn p ∧ e.NeverPanicsAt p as := by
  induction as generalizing e with
  | nil =>
    refine ⟨h, fun before a after heq => ?_⟩
    cases before <;> cases heq
  | cons a as ih =>
    have hfirst := hspares [] List.nil_prefix
    have hrest := fun b hb => has b (List.mem_cons_of_mem a hb)
    obtain ⟨hafter, hnever⟩ := ih (h.act hfirst (has a List.mem_cons_self))
      (fun before hbefore => hspares (a :: before) (by simpa using hbefore)) hrest
    refine ⟨hafter, fun before b after heq => ?_⟩
    cases before with
    | nil =>
      cases heq
      cases a with
      | advance n =>
        rintro ⟨t, ht, o, c, i, context, x, below, hframes, hp⟩
        have htop := h.tasks t (task?_eq_some ht).1
        rw [hframes] at htop
        exact htop.1 hp
      | _ => exact id
    | cons b' before =>
      cases heq
      exact hnever before b after rfl

end HandsOn

end Engine

/-! ## Choices and branches -/

/-- What a choice between two nested runs is made of. The second workflow may be named several
times. -/
structure Fork where
  condition : Predicate
  yes : String
  names : List String := []
  input : Option (Selector Json) := none
  wait : Bool := true

namespace Fork

/-- The second workflow: the name that was given last, unless it is blank. -/
def no (f : Fork) : Option String := f.names.getLast?.filter fun name => !isBlank name

/-- The choice, the second workflow being named each time. -/
def choice (f : Fork) : NestedChoice :=
  f.names.foldl .otherwise
    { condition := f.condition, yes := f.yes, input := f.input, wait := f.wait }

/-- The nested run of one of the workflows. -/
def nested (f : Fork) (workflow : String) : Nested := { workflow, input := f.input, wait := f.wait }

/-- The branch over the nested runs; without a second workflow it has no second step. -/
def branch (f : Fork) : Step :=
  .branch f.condition (f.nested f.yes).step (f.no.map fun name => (f.nested name).step)

/-- **The last name counts**, and a blank one takes the second workflow away. -/
theorem choice_eq (f : Fork) : f.choice = ⟨f.condition, f.yes, f.no, f.input, f.wait⟩ := by
  obtain ⟨condition, yes, names, input, wait⟩ := f
  have hall : ∀ (names : List String) (no : Option String),
      names.foldl NestedChoice.otherwise ⟨condition, yes, no, input, wait⟩ =
        ⟨condition, yes, (names.foldl (fun _ name => if isBlank name then none else some name) no),
          input, wait⟩ := by
    intro names
    induction names with
    | nil => exact fun _ => rfl
    | cons name names ih => exact fun _ => ih _
  refine (hall names none).trans ?_
  obtain rfl | ⟨before, name, rfl⟩ := names.eq_nil_or_concat
  · rfl
  · simp only [no, List.concat_eq_append, List.foldl_append, List.getLast?_concat, Option.filter,
      List.foldl_cons, List.foldl_nil]
    by_cases hblank : isBlank name = true <;> simp [hblank]

/-- **A guarded choice is a branch.** -/
theorem guarded_choice (f : Fork) : f.choice.step.guarded = f.branch := by
  rw [choice_eq]
  refine congrArg (Step.mk none) (funext fun c => ?_)
  simp only [NestedChoice.step, Nested.step]
  cases f.condition c with
  | error r => rfl
  | ok b =>
    cases b with
    | true => rfl
    | false => cases f.no <;> rfl

end Fork

/-! ## Filling workflows in -/

/-- Another step, if there is one, under the label of the step. -/
def Step.replacedBy (s : Step) : Option Step → Step
  | some s' => { s' with label := s.label }
  | none => s

section

variable (g : String → Nat → Option Step)

/-- The definition with other steps at some places, under the labels that stand there. -/
def Definition.fill (d : Definition) : Definition :=
  { d with steps := d.steps.mapIdx fun i s => s.replacedBy (g d.name i) }

def Chain.fill (c : Chain) : Chain := { c with definition := c.definition.fill g }

def Registry.fill (r : Registry) : Registry := ⟨r.definitions.map (Definition.fill g)⟩

def Act.fill : Act → Act
  | .addRunner registry services => .addRunner (registry.fill g) services
  | a => a

end

namespace Fork

variable (forks : String → Nat → Option Fork)

/-- Where there are forks. -/
def places : String → Nat → Bool := fun name i => (forks name i).isSome

/-- Every fork as a choice. -/
def choices : String → Nat → Option Step := fun name i => (forks name i).map fun f => f.choice.step

/-- Every fork as a branch. -/
def branches : String → Nat → Option Step := fun name i => (forks name i).map branch

variable {forks}

theorem guarded_definition (d : Definition) :
    (d.fill (choices forks)).guardAt (places forks) = d.fill (branches forks) := by
  simp only [Definition.guardAt, Definition.fill, List.mapIdx_mapIdx]
  congr 2
  funext i s
  simp only [Function.comp_apply, places, choices, branches]
  obtain hfork | ⟨f, hfork⟩ := Option.eq_none_or_eq_some (forks d.name i)
  · simp [hfork, Step.replacedBy]
  · simp only [hfork, Option.isSome_some, if_true, Option.map_some, ← guarded_choice]
    rfl

theorem guarded_registry (r : Registry) :
    (r.fill (choices forks)).guardAt (places forks) = r.fill (branches forks) := by
  simp only [Registry.guardAt, Registry.fill, Table.map_map, guarded_definition]

theorem guarded_chain (c : Chain) :
    (c.fill (choices forks)).guardAt (places forks) = c.fill (branches forks) := by
  simp only [Chain.guardAt, Chain.fill, guarded_definition]

theorem guarded_act (a : Act) :
    (a.fill (choices forks)).guardAt (places forks) = a.fill (branches forks) := by
  cases a with
  | addRunner registry services => simp only [Act.fill, Act.guardAt, guarded_registry]
  | _ => rfl

/-- A choice raises no panic of its own. -/
theorem handsOn_definition (d : Definition) :
    (d.fill (choices forks)).HandsOn (places forks) := by
  intro i s hp hs c
  obtain ⟨f, hf⟩ : ∃ f, forks d.name i = some f := Option.isSome_iff_exists.1 hp
  have hstep : (d.fill (choices forks)).step? i = (d.step? i).map _ := List.getElem?_mapIdx
  rw [hstep] at hs
  obtain ⟨s₀, -, rfl⟩ := Option.map_eq_some_iff.1 hs
  simp only [choices, hf, Option.map_some]
  exact f.choice.handsOn_execute c

theorem meets_act (a : Act) : (a.fill (choices forks)).Meets (.handingOn (places forks)) := by
  cases a with
  | addRunner registry services =>
    intro name d hd
    rw [Registry.find?, Registry.fill, Table.get?_map] at hd
    obtain ⟨d, -, rfl⟩ := Option.map_eq_some_iff.1 hd
    exact handsOn_definition d
  | _ => trivial

end Fork

namespace Engine

open Fork

/-- In a new engine there is nothing to be guarded. -/
theorem IsNew.guardAt_eq (h : e.IsNew) : e.guardAt p = e := by
  have harmed : e.scheduler.timers.armed.map (Timer.guardAt p) = e.scheduler.timers.armed := by
    rw [h.armed]
    rfl
  have hrunners : e.runners.map (Runner.guardAt p) = e.runners := by
    rw [h.runners]
    rfl
  have htasks : e.tasks.map (Task.guardAt p) = e.tasks := by
    rw [h.tasks]
    rfl
  rw [guardAt, Scheduler.guardAt, Timers.guardAt, harmed, hrunners, htasks]

/-- **Choices are branches.** Steps at some places of workflows start one of two workflows each, as
a choice or as a branch over two nested runs. The branch does on every context what the choice
does, guarded; and as long as no nested run panics that a choice waits for, every history with
choices, in which chains may also be started without a runner, is one with branches. The same is
done for the same chains with the same contexts, the nested ones included, the same is written,
stored and told, and what is left of steps in the end is the same, guarded where there are branches.
-/
theorem IsNew.choices_are_branches (h : e.IsNew) (forks : String → Nat → Option Fork)
    (before after : List Act) {m' : Engine}
    (hm : m = e.after (before.map (Act.fill (choices forks))) ∧
        m' = e.after (before.map (Act.fill (branches forks))) ∨
      ∃ (τ : Token) (c : Chain) (start : Nat),
        m = ((e.after (before.map (Act.fill (choices forks)))).startDispatch τ
          (c.fill (choices forks)) start).2 ∧
        m' = ((e.after (before.map (Act.fill (branches forks)))).startDispatch τ
          (c.fill (branches forks)) start).2)
    (hbefore : e.SparesAll (places forks) (before.map (Act.fill (choices forks))))
    (hafter : m.SparesAll (places forks) (after.map (Act.fill (choices forks)))) :
    let e₁ := m.after (after.map (Act.fill (choices forks)))
    let e₂ := m'.after (after.map (Act.fill (branches forks)))
    (∀ f : Fork, f.choice.no = f.names.getLast?.filter (fun name => !isBlank name) ∧
      ∀ c, f.branch.execute c = (f.choice.step.execute c).guarded) ∧
    (e₂.store = e₁.store ∧ e₂.journal = e₁.journal ∧ e₂.endings = e₁.endings ∧
      e₂.settled = e₁.settled ∧ e₂.pending = e₁.pending ∧ e₂.identities = e₁.identities) ∧
    m'.chronicle (after.map (Act.fill (branches forks))) =
      (m.chronicle (after.map (Act.fill (choices forks)))).map (guardDeed (places forks)) ∧
    e₂ = e₁.guardAt (places forks) := by
  have hacts : ∀ as : List Act, (as.map (Act.fill (choices forks))).map
      (Act.guardAt (places forks)) = as.map (Act.fill (branches forks)) := fun as => by
    rw [List.map_map]
    exact List.map_congr_left fun a _ => guarded_act a
  have hmeets : ∀ (as : List Act), ∀ a ∈ as.map (Act.fill (choices forks)),
      a.Meets (.handingOn (places forks)) := fun as a ha => by
    obtain ⟨a, -, rfl⟩ := List.mem_map.1 ha
    exact meets_act a
  have hnew : e.HandsOn (places forks) := ⟨h.sound _, by simp [h.tasks]⟩
  obtain ⟨hfirst, hnever⟩ := hnew.neverPanicsAt hbefore (hmeets before)
  have hbegun := (guardAt_after hnever).1
  rw [hacts, h.guardAt_eq] at hbegun
  obtain ⟨hm, hm'⟩ : m.HandsOn (places forks) ∧ m' = m.guardAt (places forks) := by
    obtain ⟨rfl, rfl⟩ | ⟨τ, c, start, rfl, rfl⟩ := hm
    · exact ⟨hfirst, hbegun⟩
    · refine ⟨⟨hfirst.sound.spawn τ ⟨handsOn_definition _, trivial⟩, fun u hu => ?_⟩, ?_⟩
      · rcases List.mem_append.1 hu with hu | hu
        · exact hfirst.tasks u hu
        · rw [List.mem_singleton.1 hu]
          exact .single trivial
      · rw [hbegun, startDispatch, startDispatch, ← guardAt_spawn, ← guarded_chain]
        rfl
  obtain ⟨-, hnever⟩ := hm.neverPanicsAt hafter (hmeets after)
  obtain ⟨hends, hdone⟩ := guardAt_after hnever
  rw [hacts, ← hm'] at hends hdone
  intro e₁ e₂
  have hboth : e₂ = e₁.guardAt (places forks) := hends
  refine ⟨fun f => ⟨by rw [f.choice_eq]; rfl, fun c => ?_⟩, ?_, hdone, hboth⟩
  · rw [← f.guarded_choice]
    rfl
  · rw [hboth]
    exact ⟨rfl, rfl, rfl, rfl, rfl, rfl⟩

end Engine

namespace ChosenWorkflow

open Fork

/-- A workflow that starts another one: the one that is named last. -/
def forks (name : String) (i : Nat) : Option Fork :=
  if name = "trip" ∧ i = 0 then
    some { condition := fun _ => .ok false, yes := "left", names := ["middle", "right"] }
  else none

def registry : Registry :=
  ⟨(Table.empty.put "trip" ⟨"trip", [.log "set out"]⟩).put "right" ⟨"right", [.log "arrive"]⟩⟩

def acts : List Act :=
  [.addRunner registry .empty, .run ⟨0⟩ (.root 0) { workflow := "trip", inst := some "x" }] ++
    .replicate 21 (.advance 2)

/-- The engine after the trip, with one of the steps or the other. -/
def arrived (steps : String → Nat → Option Step) : Engine :=
  Greeting.engine.after (acts.map (Act.fill steps))

/-- Both trips come to their ends by way of the same nested run. -/
theorem same_way :
    Greeting.engine.IsNew ∧ Greeting.engine.SparesAll (places forks) [] ∧
      Greeting.engine.SparesAll (places forks) (acts.map (Act.fill (choices forks))) ∧
      arrived (branches forks) = (arrived (choices forks)).guardAt (places forks) ∧
      (arrived (branches forks)).endings.map Prod.fst = [2] ∧
      (arrived (branches forks)).position "x" = 1 ∧
      (arrived (branches forks)).position "" = 1 := by
  have hnew : Greeting.engine.IsNew := ⟨rfl, rfl, rfl, rfl⟩
  have hspares : Greeting.engine.SparesAll (places forks) (acts.map (Act.fill (choices forks))) := by
    have hall : ∀ before ∈ (acts.map (Act.fill (choices forks))).inits,
        ∀ t ∈ (Greeting.engine.after before).tasks, t.Spares (places forks) := by decide +kernel
    exact fun before hbefore => hall before ((List.mem_inits _ _).2 hbefore)
  have hbegin : Greeting.engine.SparesAll (places forks) [] := by
    intro before hbefore
    rw [List.prefix_nil.1 hbefore]
    exact fun t ht => (List.not_mem_nil ht).elim
  have hsame := (hnew.choices_are_branches forks [] acts (.inl ⟨rfl, rfl⟩) hbegin hspares).2.2.2
  exact ⟨hnew, hbegin, hspares, hsame, by decide +kernel, by decide +kernel, by decide +kernel⟩

end ChosenWorkflow

end DurableFlow
