import DurableFlow.Proofs.NestedRuns.UnawaitedCalls
import DurableFlow.Proofs.NestedRuns.Ladders

/-!
# Containment of panics

A library step runs predicates, selectors, bodies and other steps that may panic, and launches
nested runs. Two things are shown of it. Wherever something that a user supplied gives up, the step
fails with the error itself or with the text of the panic, and keeps every change of the context
that was made before (`Step.Raises.course_iff`). And it never panics, however deep the nested runs
go that it launches, if these are of workflows whose steps are library steps again: a stack of
frames in which every nested run that may panic stands above a step that takes its panic stays one
by every move (`Engine.IsContained.after`).

Main statement: `Step.IsLibrary.contains_panics`.
-/

namespace DurableFlow

/-! ## Courses -/

/-- What a behaviour does on its course, with the answers that it gets. -/
inductive Sign
  | emitted (emission : Emission)
  | cancelled
  | awaited (context : Context) (signal : Signal)
  | located (runner : RunnerId) (alive : Bool)
  | launched (context : Context) (runner : RunnerId) (request : Request) (reply : Reply)

namespace Behaviour

/-- The behaviour does these things, and ends with the context and an outcome or a panic. -/
inductive Course : Behaviour → List Sign → Context → Except Panic Outcome → Prop
  | finish {c : Context} {o : Outcome} : Course (finish c o) [] c (.ok o)
  | panic {c : Context} {p : Panic} : Course (panic c p) [] c (.error p)
  | emit {x : Emission} {b : Behaviour} {signs c result} (h : Course b signs c result) :
      Course (emit x b) (.emitted x :: signs) c result
  | cancel {b : Behaviour} {signs c result} (h : Course b signs c result) :
      Course (cancel b) (.cancelled :: signs) c result
  | await {c₀ : Context} {s : Signal} {b : Behaviour} {signs c result}
      (h : Course b signs c result) : Course (await c₀ s b) (.awaited c₀ s :: signs) c result
  | locate {r : RunnerId} {next : Bool → Behaviour} {alive signs c result}
      (h : Course (next alive) signs c result) :
      Course (locate r next) (.located r alive :: signs) c result
  | launch {c₀ : Context} {r : RunnerId} {q : Request} {next : Reply → Behaviour} {reply signs c
      result} (h : Course (next reply) signs c result) :
      Course (launch c₀ r q next) (.launched c₀ r q reply :: signs) c result

variable {b : Behaviour} {signs : List Sign} {c c' : Context}
  {result result' : Except Panic Outcome}

/-- What a behaviour does, and is answered, determines how it ends. -/
theorem Course.unique (h : b.Course signs c result) (h' : b.Course signs c' result') :
    c' = c ∧ result' = result := by
  induction h with
  | finish => cases h'; exact ⟨rfl, rfl⟩
  | panic => cases h'; exact ⟨rfl, rfl⟩
  | emit h ih => cases h' with | emit h' => exact ih h'
  | cancel h ih => cases h' with | cancel h' => exact ih h'
  | await h ih => cases h' with | await h' => exact ih h'
  | locate h ih => cases h' with | locate h' => exact ih h'
  | launch h ih => cases h' with | launch h' => exact ih h'

/-- The outcome that containment makes of an end. -/
def contain : Except Panic Outcome → Outcome
  | .ok o => o
  | .error p => .failure (.panicked p)

/-- A guarded behaviour does what the behaviour does, and leaves what it leaves. -/
theorem Course.guarded (h : b.Course signs c result) :
    b.guarded.Course signs c (.ok (contain result)) := by
  induction h with
  | finish => exact .finish
  | panic => exact .finish
  | emit h ih => exact .emit ih
  | cancel h ih => exact .cancel ih
  | await h ih => exact .await ih
  | locate h ih => exact .locate ih
  | launch h ih => exact .launch ih

end Behaviour

/-! ## Library steps -/

namespace Step

/-- A step of the library, all of whose nested runs are of workflows of these names. What stands
below a branch may be any step. -/
inductive IsLibrary (ok : String → Prop) : Step → Prop
  | log (message : String) (sink : Option Sink) : IsLibrary ok (log message sink)
  | delay (d : Duration) : IsLibrary ok (delay d)
  | jump (label : String) : IsLibrary ok (jump label)
  | jumpIf (condition : Predicate) (yes no : String) : IsLibrary ok (jumpIf condition yes no)
  | waitForEvent (event : String) (key : Option String) : IsLibrary ok (waitForEvent event key)
  | code (body : Context → Behaviour) : IsLibrary ok (code body)
  | named (name : String) {s : Step} (h : IsLibrary ok s) : IsLibrary ok (named name s)
  | branch (condition : Predicate) (yes : Step) (no : Option Step) :
      IsLibrary ok (branch condition yes no)
  | nested {n : Nested} (h : ok n.workflow) : IsLibrary ok n.step
  | nestedChoice {n : NestedChoice} (hyes : ok n.yes) (hno : ∀ name ∈ n.no, ok name) :
      IsLibrary ok n.step

/-- Something that a user supplied to a library step gives up in the course of its execution: a
predicate, a selector, a body or a step below a branch. The step has done these things by then, and
this is the context that is left. -/
inductive Raises : Step → Context → List Sign → Context → Refusal → Prop
  | jumpIf {condition : Predicate} {yes no c r} (h : condition c = .error r) :
      Raises (jumpIf condition yes no) c [] c r
  | condition {condition : Predicate} {yes no c r} (h : condition c = .error r) :
      Raises (branch condition yes no) c [] c r
  | choice {n : NestedChoice} {c r} (h : n.condition c = .error r) : Raises n.step c [] c r
  | selector {n : Nested} {c runner p} (hrunner : c.services.get? .runner = some runner)
      (h : n.request c = .error p) : Raises n.step c [.located runner true] c (.panic p)
  | choiceSelector {n : NestedChoice} {workflow c runner p}
      (hchoice : n.condition c = .ok true ∧ workflow = n.yes ∨
        n.condition c = .ok false ∧ n.no = some workflow)
      (hrunner : c.services.get? .runner = some runner)
      (h : (n.nested workflow).request c = .error p) :
      Raises n.step c [.located runner true] c (.panic p)
  | panic {body : Context → Behaviour} {c signs c' p} (h : (body c).Course signs c' (.error p)) :
      Raises (code body) c signs c' (.panic p)
  | error {body : Context → Behaviour} {c signs c' cause}
      (h : (body c).Course signs c' (.ok (.failure cause))) :
      Raises (code body) c signs c' (.error cause)
  | yesPanic {condition : Predicate} {yes : Step} {no c signs c' p} (hc : condition c = .ok true)
      (h : (yes.execute c).Course signs c' (.error p)) :
      Raises (branch condition yes no) c signs c' (.panic p)
  | noPanic {condition : Predicate} {yes no : Step} {c signs c' p} (hc : condition c = .ok false)
      (h : (no.execute c).Course signs c' (.error p)) :
      Raises (branch condition yes (some no)) c signs c' (.panic p)
  | yes {condition : Predicate} {yes : Step} {no c signs c' r} (hc : condition c = .ok true)
      (h : Raises yes c signs c' r) : Raises (branch condition yes no) c signs c' r
  | no {condition : Predicate} {yes no : Step} {c signs c' r} (hc : condition c = .ok false)
      (h : Raises no c signs c' r) : Raises (branch condition yes (some no)) c signs c' r
  | named {name : String} {s : Step} {c signs c' r} (h : Raises s c signs c' r) :
      Raises (named name s) c signs c' r

theorem execute_branch_true {condition : Predicate} {c : Context} (h : condition c = .ok true)
    (yes : Step) (no : Option Step) :
    (branch condition yes no).execute c = (yes.execute c).guarded := by
  simp [branch, h]

theorem execute_branch_false {condition : Predicate} {c : Context} (h : condition c = .ok false)
    (yes no : Step) :
    (branch condition yes (some no)).execute c = (no.execute c).guarded := by
  simp [branch, h]

end Step

namespace Nested

/-- A panic of a selector is met once a runner is found. -/
theorem course_of_panic {n : Nested} {c : Context} {runner : RunnerId} {p : Panic}
    (hrunner : c.services.get? .runner = some runner) (h : n.request c = .error p) :
    (n.start c).Course [.located runner true] c (.ok (.failure (.panicked p))) := by
  simp only [start, hrunner]
  refine .locate ?_
  rw [if_pos rfl, h]
  exact .finish

end Nested

namespace NestedChoice

variable {n : NestedChoice} {workflow : String} {c : Context}

/-- The workflow that is chosen is started. -/
theorem execute_eq (h : n.condition c = .ok true ∧ workflow = n.yes ∨
    n.condition c = .ok false ∧ n.no = some workflow) :
    n.step.execute c = (n.nested workflow).start c := by
  obtain ⟨hc, rfl⟩ | ⟨hc, hno⟩ := h
  · simp [step, hc]
  · simp [step, hc, hno]

end NestedChoice

/-- **Where something gives up, the step fails of it**, and keeps the context that was left. -/
theorem Step.Raises.course {s : Step} {c c' : Context} {signs : List Sign} {r : Refusal}
    (h : s.Raises c signs c' r) : (s.execute c).Course signs c' (.ok (.failure r.cause)) := by
  induction h with
  | jumpIf h =>
    simp only [Step.jumpIf, Step.deciding, h]
    exact .finish
  | condition h =>
    simp only [Step.branch, h]
    exact .finish
  | choice h =>
    simp only [NestedChoice.step, h]
    exact .finish
  | selector hrunner h => exact Nested.course_of_panic hrunner h
  | choiceSelector hchoice hrunner h =>
    rw [NestedChoice.execute_eq hchoice]
    exact Nested.course_of_panic hrunner h
  | panic h => exact h.guarded
  | error h => exact h.guarded
  | yesPanic hc h =>
    rw [Step.execute_branch_true hc]
    exact h.guarded
  | noPanic hc h =>
    rw [Step.execute_branch_false hc]
    exact h.guarded
  | yes hc _ ih =>
    rw [Step.execute_branch_true hc]
    exact ih.guarded
  | no hc _ ih =>
    rw [Step.execute_branch_false hc]
    exact ih.guarded
  | named _ ih => exact ih

theorem Step.Raises.course_iff {s : Step} {c c' : Context} {signs : List Sign} {r : Refusal}
    (h : s.Raises c signs c' r) (c₂ : Context) (result : Except Panic Outcome) :
    (s.execute c).Course signs c₂ result ↔ c₂ = c' ∧ result = .ok (.failure r.cause) := by
  constructor
  · exact h.course.unique
  · rintro ⟨rfl, rfl⟩
    exact h.course

/-! ## Behaviours that raise no panic -/

/-- A request for a workflow of these names that does not seed its context. -/
def Request.IsTame (ok : String → Prop) (q : Request) : Prop := ok q.workflow ∧ q.init = none

namespace Behaviour

/-- A behaviour that panics on no course but on one on which a nested run that is not tame does. -/
def IsContained (ok : String → Prop) : Behaviour → Prop
  | finish _ _ => True
  | panic _ _ => False
  | emit _ b | cancel b | await _ _ b => b.IsContained ok
  | locate _ next => ∀ alive, (next alive).IsContained ok
  | launch _ _ q next => (∀ v, (next (.settled v)).IsContained ok) ∧
      (q.IsTame ok ∨ ∀ p, (next (.panicked p)).IsContained ok)

variable {ok : String → Prop}

/-- A guarded behaviour contains even the panics of nested runs. -/
theorem isContained_guarded (b : Behaviour) : b.guarded.IsContained ok := by
  induction b with
  | finish c o => trivial
  | panic c p => trivial
  | emit x b ih => exact ih
  | cancel b ih => exact ih
  | await c s b ih => exact ih
  | locate r next ih => exact ih
  | launch c r q next ih => exact ⟨fun v => ih _, .inr fun p => ih _⟩

end Behaviour

namespace Nested

variable {ok : String → Prop} {n : Nested}

theorem isTame_request (hn : ok n.workflow) {c : Context} {q : Request}
    (h : n.request c = .ok q) : q.IsTame ok := by
  unfold request at h
  simp only [bind, Except.bind, pure, Except.pure] at h
  grind [Request.IsTame]

theorem isContained_conclude (n : Nested) (c : Context) (v : Settlement) :
    (n.conclude c (.settled v)).IsContained ok := by
  cases v with
  | error e => trivial
  | ok r =>
    simp only [conclude]
    split
    · trivial
    · split <;> trivial

theorem isContained_start (hn : ok n.workflow) (c : Context) : (n.start c).IsContained ok := by
  unfold start
  split
  · trivial
  · intro alive
    cases alive with
    | false => trivial
    | true =>
      simp only [if_true]
      split
      · rename_i q hq
        exact ⟨n.isContained_conclude c, .inl (isTame_request hn hq)⟩
      · trivial

end Nested

/-- **A library step raises no panic**, if the nested runs that it launches do not. -/
theorem Step.IsLibrary.isContained {ok : String → Prop} {s : Step} (h : s.IsLibrary ok)
    (c : Context) : (s.execute c).IsContained ok := by
  induction h with
  | log message sink =>
    simp only [Step.log]
    split <;> trivial
  | delay | jump | jumpIf => trivial
  | waitForEvent event key =>
    simp only [Step.waitForEvent]
    split <;> trivial
  | code body => exact Behaviour.isContained_guarded _
  | named name h ih => exact ih
  | branch condition yes no =>
    simp only [Step.branch]
    split
    · exact Behaviour.isContained_guarded _
    · exact Behaviour.isContained_guarded _
    · trivial
    · trivial
  | nested h => exact Nested.isContained_start h c
  | @nestedChoice n hyes hno =>
    simp only [NestedChoice.step]
    split
    · trivial
    · exact Nested.isContained_start (n := n.nested n.yes) hyes c
    · rename_i name _ hname
      exact Nested.isContained_start (n := n.nested name) (hno name hname) c
    · trivial

/-! ## Stacks of frames -/

/-- The steps of a definition are library steps. -/
def Definition.IsLibrary (ok : String → Prop) (d : Definition) : Prop :=
  ∀ s ∈ d.steps, s.IsLibrary ok

/-- The workflows of these names are made of library steps. -/
def Registry.IsLibrary (ok : String → Prop) (r : Registry) : Prop :=
  ∀ name d, r.find? name = some d → ok name → d.IsLibrary ok

/-- Whether runners are made over such registries only. -/
def Act.IsLibrary (ok : String → Prop) : Act → Prop
  | .addRunner registry _ => registry.IsLibrary ok
  | _ => True

/-- The step at the index is none of the library. -/
def Definition.IsForeignAt (ok : String → Prop) (d : Definition) (i : Nat) : Prop :=
  ∃ s, d.step? i = some s ∧ ¬ s.IsLibrary ok

theorem Definition.IsLibrary.not_isForeignAt {ok : String → Prop} {d : Definition}
    (h : d.IsLibrary ok) (i : Nat) : ¬ d.IsForeignAt ok i :=
  fun ⟨s, hs, hforeign⟩ => hforeign (h s (List.mem_of_getElem? hs))

/-- What is left of a library step raises no panic, unless a nested run does. -/
def Stage.IsContained (ok : String → Prop) (d : Definition) : Stage → Prop
  | .inside i b => d.IsForeignAt ok i ∨ b.IsContained ok
  | .calling i next => d.IsForeignAt ok i ∨ ∀ v, (next (.settled v)).IsContained ok
  | _ => True

namespace Frame

def IsContained (ok : String → Prop) : Frame → Prop
  | .driving _ c stage => stage.IsContained ok c.definition
  | _ => True

/-- Whether a frame hands no panic on. -/
def IsTame (ok : String → Prop) : Frame → Prop
  | .opening _ q _ => q.IsTame ok
  | .driving _ c _ => c.definition.IsLibrary ok
  | _ => True

/-- Whether a step that waits for a nested run takes a panic of it; a foreign one may do as it
likes. -/
def Catches (ok : String → Prop) : Frame → Prop
  | .driving _ c (.calling i next) =>
    c.definition.IsForeignAt ok i ∨ ∀ p, (next (.panicked p)).IsContained ok
  | _ => True

/-- A stack of frames in which every frame that may hand a panic on stands above one that takes
it. -/
def AreContained (ok : String → Prop) : List Frame → Prop
  | [] => True
  | f :: below => f.IsContained ok ∧ (f.IsTame ok ∨ ∀ g ∈ below.head?, g.Catches ok) ∧
      AreContained ok below

variable {ok : String → Prop} {f g : Frame} {below : List Frame}

/-- A frame by itself. -/
theorem AreContained.single (h : f.IsContained ok) : AreContained ok [f] := by
  refine ⟨h, .inr fun g hg => ?_, trivial⟩
  cases hg

theorem AreContained.replace (h : AreContained ok (f :: below)) (hg : g.IsContained ok)
    (htame : f.IsTame ok → g.IsTame ok) : AreContained ok (g :: below) :=
  ⟨hg, h.2.1.imp_left htame, h.2.2⟩

end Frame

namespace Engine

variable {ok : String → Prop} {e : Engine} {t : Task} {f : Frame} {below : List Frame} {o : Origin}
  {c : Chain}

/-- The runners are made over registries whose workflows of these names are of the library. -/
def RunsLibrary (ok : String → Prop) (e : Engine) : Prop :=
  ∀ id r, e.runners.get? id = some r → r.registry.IsLibrary ok

/-- A step that is executed is a foreign one, or contained. -/
theorem isContained_execute {i : Nat} {s : Step} (hs : c.definition.step? i = some s) :
    (Frame.driving o c (.inside i (s.execute c.context))).IsContained ok := by
  by_cases hlibrary : s.IsLibrary ok
  · exact .inr (hlibrary.isContained _)
  · exact .inl ⟨s, hs, hlibrary⟩

/-- A frame that is contained and is over with a panic hands it on only to one that takes it. -/
theorem not_isTame_of_panics {p : Panic} (hf : f.IsContained ok) (h : f.Panics p) :
    ¬ f.IsTame ok := by
  intro htame
  cases h with
  | seed hinit => exact hinit htame.2
  | step => exact htame.not_isForeignAt _ (hf.resolve_right id)

/-- What becomes of a frame that is contained is contained, too. -/
theorem areContained_becomes {fs : List Frame} (hrunners : e.RunsLibrary ok)
    (h : Frame.AreContained ok (f :: below)) (hfs : f.Becomes e fs) :
    Frame.AreContained ok (fs ++ below) := by
  cases hfs with
  | stay => exact h
  | @start r q resuming o c i hfind =>
    obtain ⟨runner, hr, hd⟩ := hfind
    exact h.replace trivial fun htame => hrunners r runner hr q.workflow _ hd htame.1
  | execute hs => exact h.replace (isContained_execute hs) id
  | goOn hgo =>
    cases hgo with
    | locate => exact h.replace (h.1.imp_right fun hb => hb _) id
    | _ => exact h.replace (h.1.imp_right id) id
  | launch =>
    refine ⟨trivial, ?_, h.replace (h.1.imp_right And.left) id⟩
    rcases h.1 with hforeign | ⟨-, hpanicked⟩
    · refine .inr ?_
      rintro _ ⟨⟩
      exact .inl hforeign
    · refine hpanicked.imp_right fun hp => ?_
      rintro _ ⟨⟩
      exact .inr hp
  | @turn o c c' stage stage' hc hquiet =>
    refine h.replace ?_ fun htame => ?_
    · cases stage' with
      | inside i b => cases hquiet
      | calling i next => cases hquiet
      | _ => trivial
    · show c'.definition.IsLibrary ok
      exact hc.symm ▸ htame
  | receive => exact h.replace trivial fun _ => trivial

/-- **A move leaves frames behind that are contained.** -/
theorem areContained_restacks {fs : List Frame} (hrunners : e.RunsLibrary ok)
    (h : Frame.AreContained ok t.frames) (hfs : e.Restacks t fs) : Frame.AreContained ok fs := by
  cases hfs with
  | abandon => exact .single trivial
  | look => exact h
  | go ht hbecomes =>
    rw [ht] at h
    exact areContained_becomes hrunners h hbecomes
  | @hand f o c i next below reply ht _ hpanics =>
    rw [ht] at h
    obtain ⟨hf, hcatches, hstage, htame, hbelow⟩ := h
    refine ⟨?_, htame, hbelow⟩
    cases reply with
    | settled v => exact hstage.imp_right fun h => h v
    | panicked p =>
      have hcatches := hcatches.resolve_left (not_isTame_of_panics hf (hpanics p rfl))
      exact (hcatches _ rfl).imp_right fun h => h p

/-! ## Histories -/

/-- No nested run hands a panic on to a library step that does not take it. -/
structure IsContained (ok : String → Prop) (e : Engine) : Prop where
  sound : e.Sound .any
  tasks : ∀ t ∈ e.tasks, Frame.AreContained ok t.frames
  runners : e.RunsLibrary ok

namespace IsContained

/-- **Every act leaves an engine behind that is contained.** -/
theorem act (h : e.IsContained ok) {a : Act} (ha : a.IsLibrary ok) :
    (e.act a).IsContained ok where
  sound := h.sound.act_any a
  tasks := h.sound.frames_act (fun _ _ _ => .single trivial) (fun _ _ => .single trivial)
    (fun t ht _ _ hfs => areContained_restacks h.runners (h.tasks t ht) hfs) h.tasks
  runners id r hr := by
    obtain hold | ⟨⟨services, rfl⟩, -⟩ := h.sound.runner_of_act hr
    · exact h.runners id r hold
    · exact ha

/-- **Throughout a history, an engine is contained.** -/
theorem after (h : e.IsContained ok) {as : List Act} (has : ∀ a ∈ as, a.IsLibrary ok) :
    (e.after as).IsContained ok := by
  induction as generalizing e with
  | nil => exact h
  | cons a as ih =>
    exact ih (h.act (has a List.mem_cons_self)) fun a' ha' => has a' (List.mem_cons_of_mem _ ha')

/-- A chain may be started without a runner, from any context. -/
theorem dispatch (h : e.IsContained ok) (token : Token) (c : Chain) (start : Nat) :
    (e.startDispatch token c start).2.IsContained ok := by
  refine ⟨h.sound.spawn token ⟨trivial, trivial⟩, fun u hu => ?_, h.runners⟩
  rcases List.mem_append.1 hu with hu | hu
  · exact h.tasks u hu
  · rw [List.mem_singleton.1 hu]
    exact .single trivial

/-- What is about to panic is no library step. -/
theorem isForeignAt (h : e.IsContained ok) (ht : t ∈ e.tasks) {i : Nat} {context : Context}
    {p : Panic} (hframes : t.frames = .driving o c (.inside i (.panic context p)) :: below) :
    c.definition.IsForeignAt ok i := by
  have hcontained := h.tasks t ht
  rw [hframes] at hcontained
  exact hcontained.1.resolve_right id

end IsContained

theorem IsNew.isContained (h : e.IsNew) (ok : String → Prop) : e.IsContained ok where
  sound := h.sound .any
  tasks := by simp [h.tasks]
  runners id r hr := by
    rw [h.runners] at hr
    cases hr

end Engine

/-- The text of a panic, as it stands in the failure that the panic becomes. -/
theorem Refusal.cause_panic (p : Panic) : (Refusal.panic p).cause =
    .plain ("step panicked: " ++ match p with
      | .text s => s
      | .unreadable => "unknown panic payload") := by
  cases p <;> rfl

/-- **Library steps contain panics.** Let the nested runs of a library step be of workflows whose
steps are library steps again, to any depth. Whatever happens in an engine, and whatever the context
that the step is executed on, it does not panic. Where something gives up that a user supplied to
it, at any depth below its branches, the step fails of that very error, or of the text of the panic,
and the context that was left by then remains. -/
theorem Step.IsLibrary.contains_panics {ok : String → Prop} {s : Step} (h : s.IsLibrary ok) :
    (∀ e : Engine, e.IsNew → ∀ before after : List Act,
      (∀ a ∈ before ++ after, a.IsLibrary ok) →
      ∀ m, (m = e.after before ∨
          ∃ token chain start, m = ((e.after before).startDispatch token chain start).2) →
      ∀ t ∈ (m.after after).tasks, ∀ o c i context p below,
        t.frames = .driving o c (.inside i (.panic context p)) :: below →
          c.definition.step? i ≠ some s) ∧
    ∀ c signs c' r, s.Raises c signs c' r →
      (∀ c₂ result, (s.execute c).Course signs c₂ result ↔
        c₂ = c' ∧ result = .ok (.failure r.cause)) ∧
      (∀ cause, r = .error cause → r.cause = cause) ∧
      ∀ p, r = .panic p → r.cause = .plain ("step panicked: " ++ match p with
        | .text s => s
        | .unreadable => "unknown panic payload") := by
  refine ⟨?_, fun c signs c' r hr => ⟨hr.course_iff, ?_, ?_⟩⟩
  · intro e hnew before after hacts m hm t ht o c i context p below hframes hs
    have hbefore := (hnew.isContained ok).after fun a ha => hacts a (List.mem_append_left _ ha)
    have hcontained : m.IsContained ok := by
      obtain rfl | ⟨token, chain, start, rfl⟩ := hm
      · exact hbefore
      · exact hbefore.dispatch token chain start
    have hafter := hcontained.after fun a ha => hacts a (List.mem_append_right _ ha)
    obtain ⟨s', hs', hforeign⟩ := hafter.isForeignAt ht hframes
    rw [hs] at hs'
    cases hs'
    exact hforeign h
  · rintro cause rfl
    rfl
  · rintro p rfl
    exact Refusal.cause_panic p

namespace NestedPanic

/-- A step of some user that makes a note, keeps an item and panics. -/
def foreign : Step :=
  .foreign fun c => .emit (.note .null) (.panic (c.setItem "seen" .null) (.text "broken"))

/-- A library step with that step below a branch. -/
def step : Step := .named "try" (.branch (fun _ => .ok true) foreign)

/-- A workflow that starts another one, which executes the step. -/
def registry : Registry :=
  ⟨(Table.empty.put "outer" ⟨"outer", [(ThreeLevels.nested "inner" "c").step]⟩).put "inner"
    ⟨"inner", [step]⟩⟩

def acts : List Act :=
  [.addRunner registry .empty, .run ⟨0⟩ (.root 0) { workflow := "outer", inst := some "p" }] ++
    .replicate 7 (.advance 2)

def context : Context := { inst := "c", workflow := "inner" }

/-- The step is about to return, within the nested run: its failure has the text of the panic, and
the item is kept. -/
theorem held_in :
    (∃ t ∈ (Greeting.engine.after acts).tasks, ∃ o c i context' below,
      t.frames = .driving o c (.inside i (.finish context'
        (.failure (.plain "step panicked: broken")))) :: below ∧ c.definition.step? i = some step) ∧
    (∀ t ∈ (Greeting.engine.after acts).tasks, ∀ o c i context' p below,
      t.frames = .driving o c (.inside i (.panic context' p)) :: below →
        c.definition.step? i ≠ some step) ∧
    (step.execute context).Course [.emitted (.note .null)] (context.setItem "seen" .null)
      (.ok (.failure (.plain "step panicked: broken"))) := by
  have hlibrary : step.IsLibrary fun _ => True := .named _ (.branch _ _ _)
  have hraises : step.Raises context [.emitted (.note .null)] (context.setItem "seen" .null)
      (.panic (.text "broken")) := .named (.yesPanic rfl (.emit .panic))
  have hacts : ∀ a ∈ acts, a.IsLibrary fun _ => True := by
    intro a ha
    rcases List.mem_append.1 ha with ha | ha
    · rcases List.mem_cons.1 ha with rfl | ha
      · intro name d hd _ s hs
        simp only [registry, Registry.find?, Table.get?_put, Table.get?_empty] at hd
        split at hd
        · cases hd
          rw [List.mem_singleton.1 hs]
          exact hlibrary
        · split at hd
          · cases hd
            rw [List.mem_singleton.1 hs]
            exact .nested trivial
          · cases hd
      · rw [List.mem_singleton.1 ha]
        trivial
    · rw [List.eq_of_mem_replicate ha]
      trivial
  obtain ⟨hengine, hfails⟩ := hlibrary.contains_panics
  refine ⟨⟨_, List.mem_cons_self, _, _, _, _, _, rfl, rfl⟩, ?_, ?_⟩
  · have hnone := hengine Greeting.engine ⟨rfl, rfl, rfl, rfl⟩ acts [] (by simpa using hacts)
      (Greeting.engine.after acts) (.inl rfl)
    rwa [Engine.after_nil] at hnone
  · exact ((hfails _ _ _ _ hraises).1 _ _).2 ⟨rfl, rfl⟩

end NestedPanic

end DurableFlow
