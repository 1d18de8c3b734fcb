import DurableFlow.Proofs.NestedRuns.Descents

/-!
# Resumptions of nested instances

A stack is a number of instances: each but the last one is at a nested step that waits for the next
one, and the last one is at a step that waits for an event (`Stack`). Somebody resumes the first one
(`Engine.Resumption`), so that each of them is executed at its step once more, down to the last one
(`Engine.Resumption.arrives`). What the last one makes of the event then comes up again, from each
instance to the one before it.

Main statement: the event reaches the last instance, and all instances go on or all of them park
again (`Engine.Resumption.reaches`).
-/

namespace DurableFlow

/-- The step at the index waits for the event, and keeps its payload under the key. -/
def Definition.Listens (d : Definition) (i : Nat) (event : String) (key : Option String) : Prop :=
  ∃ step, d.step? i = some step ∧ step.execute = (Step.waitForEvent event key).execute

theorem Definition.Nests.lt_size {d : Definition} {i : Nat} {s : Nested} (h : d.Nests i s) :
    i < d.size := by
  obtain ⟨step, hstep, -⟩ := h
  exact (List.getElem?_eq_some_iff.1 hstep).1

theorem Definition.Listens.lt_size {d : Definition} {i : Nat} {event : String}
    {key : Option String} (h : d.Listens i event key) : i < d.size := by
  obtain ⟨step, hstep, -⟩ := h
  exact (List.getElem?_eq_some_iff.1 hstep).1

/-- The context of a step that has taken an event. -/
def Context.keep (c : Context) (key : String) (payload : Json) : Context :=
  { c with event := none }.setItem key payload

theorem Step.execute_waitForEvent {c : Context} {ev : Event} (hevent : c.event = some ev)
    (key : Option String) :
    (waitForEvent ev.name key).execute c =
      .finish (c.keep (key.getD ev.name) ev.payload) .proceed := by
  simp [waitForEvent, Context.takeEvent, hevent, Context.keep]

theorem Step.execute_waitForEvent_of_ne {c : Context} {ev : Event} {event : String}
    (hevent : c.event = some ev) (hne : ev.name ≠ event) (key : Option String) :
    ∃ message, (waitForEvent event key).execute c = .finish c (.wait message) := by
  simp [waitForEvent, Context.takeEvent, hevent, hne]

/-! ## Stacks -/

/-- An instance on a stack, the step at which it is parked, and the nested run that the step
starts. -/
structure Floor where
  inst : String
  definition : Definition
  index : Nat
  nested : Nested

namespace Floor

/-- The deeds of a run that goes on from the step of a floor to the end. -/
def completing (f : Floor) (output : Option Json) : List Deed :=
  .started f.index :: (Deed.proceeding f.index (f.definition.size - f.index) ++
    Deed.completing f.inst f.definition.name output)

/-- The deeds of a run that executes the step of a floor and parks there again. -/
def parking (f : Floor) (message : String) : List Deed :=
  .started f.index :: Deed.parking f.inst f.definition.name f.index message

variable {f : Floor} {output : Option Json} {d : Deed}

theorem mem_completing (h : d ∈ f.completing output) :
    (∃ i, d = .started i ∨ d = .executed i ∨ d = .returned i .proceed ∨ d = .saved i) ∨
      d ∈ Deed.completing f.inst f.definition.name output := by
  obtain rfl | h := List.mem_cons.1 h
  · exact .inl ⟨_, .inl rfl⟩
  obtain h | h := List.mem_append.1 h
  · obtain ⟨i, hi⟩ := Deed.mem_proceeding h
    exact .inl ⟨i, .inr hi⟩
  · exact .inr h

theorem isExit_of_mem_completing (h : d ∈ f.completing output) : d.isExit = false := by
  obtain ⟨i, rfl | rfl | rfl | rfl⟩ | h := mem_completing h
  · rfl
  · rfl
  · rfl
  · rfl
  · simp only [Deed.completing, List.mem_cons, List.not_mem_nil, or_false] at h
    obtain rfl | rfl | rfl | rfl := h <;> rfl

/-- The remaining steps of such a run go on. -/
theorem proceeds_completing : Deed.Proceeds (f.index + 1) (f.completing output) := by
  refine fun j hj => ⟨fun o ho => ?_, fun hexecuted => ?_⟩
  · obtain ⟨i, h | h | h | h⟩ | h := mem_completing ho
    · cases h
    · cases h
    · exact (Deed.returned.inj h).2
    · cases h
    · simp [Deed.completing] at h
  · refine ⟨.proceed, List.mem_cons_of_mem _ (List.mem_append_left _ ?_)⟩
    obtain h | h := List.mem_append.1 ((List.mem_cons.1 hexecuted).resolve_left (by simp))
    · exact Deed.returned_mem_proceeding h
    · simp [Deed.completing] at h

theorem workflow_eq_of_mem_completing {inst workflow : String}
    (h : .published ⟨inst, workflow, .completed⟩ ∈ f.completing output) :
    workflow = f.definition.name := by
  obtain ⟨i, h | h | h | h⟩ | h := mem_completing h
  · cases h
  · cases h
  · cases h
  · cases h
  · simp [Deed.completing] at h
    exact h.2

theorem result_eq_of_mem_completing {result : RunResult}
    (h : .stopped result ∈ f.completing output) : result = ⟨f.inst, .completed, output⟩ := by
  obtain ⟨i, h | h | h | h⟩ | h := mem_completing h
  · cases h
  · cases h
  · cases h
  · cases h
  · simpa [Deed.completing] using h

theorem passed_mem_completing : .passed output ∈ f.completing output := by
  simp [completing, Deed.completing]

end Floor

/-- Each instance but the last one is at a nested step that waits for the next one, whose identity
depends on its own only, and the last one is at a step that waits for the event. -/
structure Stack (F : Nat → Floor) (n : Nat) (event : String) (key : Option String) : Prop where
  nests : ∀ k < n, (F k).definition.Nests (F k).index (F k).nested
  waits : ∀ k < n, (F k).nested.wait = true
  chooses : ∀ k < n, ∃ select, (F k).nested.inst = some select ∧
    ∀ c : Context, c.inst = (F k).inst → select c = .ok (F (k + 1)).inst
  yields : ∀ k < n, ∀ select, (F k).nested.input = some select →
    ∀ c : Context, c.inst = (F k).inst → ∃ v, select c = .ok v
  listens : (F n).definition.Listens (F n).index event key

namespace Stack

variable {F : Nat → Floor} {n k : Nat} {event : String} {key : Option String}

theorem lt_size (h : Stack F n event key) (hk : k ≤ n) : (F k).index < (F k).definition.size := by
  obtain hlt | rfl := Nat.lt_or_eq_of_le hk
  · exact (h.nests k hlt).lt_size
  · exact h.listens.lt_size

/-- The request of a nested step names the next instance, and passes the event on. -/
theorem request (h : Stack F n event key) (hk : k < n) {c : Context} (hc : c.inst = (F k).inst) :
    ∃ q, (F k).nested.request c = .ok q ∧ q.workflow = (F k).nested.workflow ∧
      q.inst = some (F (k + 1)).inst ∧ q.init = none ∧ q.wait = true ∧ q.event = c.event := by
  obtain ⟨select, hinst, hselect⟩ := h.chooses k hk
  cases hinput : (F k).nested.input with
  | none =>
    refine ⟨⟨_, some (F (k + 1)).inst, _, some c.input, none, c.event, some c.services⟩, ?_, rfl,
      rfl, rfl, h.waits k hk, rfl⟩
    simp only [Nested.request, hinput, hinst, hselect c hc]
    rfl
  | some input =>
    obtain ⟨v, hv⟩ := h.yields k hk input hinput c hc
    refine ⟨⟨_, some (F (k + 1)).inst, _, some v, none, c.event, some c.services⟩, ?_, rfl, rfl,
      rfl, h.waits k hk, rfl⟩
    simp only [Nested.request, hinput, hv, hinst, hselect c hc]
    rfl

end Stack

namespace Engine

/-- The context with which a request without a function of its own starts a run. -/
theorem seed_context {q : Request} (hinit : q.init = none) (r : RunnerId) (R : Runner)
    (D : Definition) (x : String) :
    (seed r R D x q).context.inst = x ∧ (seed r R D x q).context.event = q.event ∧
      (seed r R D x q).context.services.get? .runner = some r := by
  simp only [seed, hinit]
  cases q.input <;> cases q.event <;> exact ⟨rfl, rfl, Services.get?_insert_self ..⟩

/-- Somebody resumes the first instance of a stack with an event. The runner knows the workflows. No
instance has a run under way, and each is parked at its step; nobody else runs any of them, nothing
befalls them, the store tells their positions whenever it is asked, and the call is not cut off. At
last, nothing moves any more. -/
structure Resumption (e : Engine) (F : Nat → Floor) (n : Nat) (r : RunnerId) (ev : Event)
    (as : List Act) (a : Act) (bs : List Act) : Prop where
  called : ∃ token workflow R, a = .resume r token workflow (F 0).inst ev ∧
    (e.after as).runners.get? r = some R ∧ R.registry.find? workflow = some (F 0).definition ∧
    ∀ k < n, R.registry.find? (F k).nested.workflow = some (F (k + 1)).definition
  idle : ∀ k ≤ n, (e.after as).IsThrough (F k).inst
  parked : ∀ k ≤ n, (e.after as).position (F k).inst = (F k).index
  spell : ∀ k ≤ n, e.Spell (F k).definition (F k).inst (as ++ [a]) bs
  single : ∀ k ≤ n, ((e.after (as ++ [a])).saga (F k).inst bs).countP (fun d => d.2.isStart) ≤ 1
  stored : ∀ k ≤ n, ∀ b, b <+: bs →
    ∃ p, ((e.after (as ++ [a] ++ b)).load (F k).inst).2 = .ok (some p)
  uncut : .cut (e.after as).next ∉ bs

variable {e : Engine} {F : Nat → Floor} {n k : Nat} {r : RunnerId} {ev : Event}
  {event : String} {key : Option String} {as bs b b' b₁ b₂ : List Act} {a : Act} {c : Chain}
  {below : List Frame} {R : Runner}

/-! ## The way down -/

/-- The run of a floor has begun, in the task of the call, and is before its step. -/
structure Arrives (e : Engine) (f : Floor) (r : RunnerId) (ev : Event) (number : Nat)
    (as b : List Act) (c : Chain) (below : List Frame) : Prop where
  saga : (e.after as).saga f.inst b = [(c, .started f.index)]
  doing : (e.after (as ++ b)).IsDoing number
    (.driving (.call r c.completion) c (.entering f.index) :: below)
  definition : c.definition = f.definition
  inst : c.inst = f.inst
  event : c.context.event = some ev
  runner : c.context.services.get? .runner = some r

namespace Resumption

/-- The engine right after the call: nothing but its task is new. -/
theorem begun (h : e.Resumption F n r ev as a bs) :
    ∃ workflow R, (e.after (as ++ [a])).runners.get? r = some R ∧
      R.registry.find? workflow = some (F 0).definition ∧
      (∀ k < n, R.registry.find? (F k).nested.workflow = some (F (k + 1)).definition) ∧
      (∀ k ≤ n, (e.after (as ++ [a])).IsThrough (F k).inst) ∧
      (∀ k ≤ n, (e.after (as ++ [a])).position (F k).inst = (F k).index) ∧
      (e.after (as ++ [a])).IsDoing (e.after as).next
        [.opening r { workflow, inst := some (F 0).inst, event := some ev } true] := by
  obtain ⟨token, workflow, R, rfl, hr, hfirst, hnext⟩ := h.called
  rw [after_concat]
  refine ⟨workflow, R, hr, hfirst, hnext, fun k hk c hc => h.idle k hk c ?_, h.parked, ?_⟩
  · simpa [chains, frames, act, startResume, spawn, Frame.chain?] using hc
  · exact ⟨_, List.mem_append_right _ List.mem_cons_self, rfl, rfl, rfl⟩

/-- The call starts a run of the first instance. -/
theorem arrives_first (h : e.Resumption F n r ev as a bs) :
    ∃ b₁ b₂ c, bs = b₁ ++ b₂ ∧ c.completion = none ∧
      e.Arrives (F 0) r ev (e.after as).next (as ++ [a]) b₁ c [] := by
  obtain ⟨workflow, R, hr, hfirst, -, hidle, hparked, hopening⟩ := h.begun
  have hzero : 0 ≤ n := Nat.zero_le n
  have hspell : e.Spell (F 0).definition (F 0).inst (as ++ [a]) ([] ++ bs) := h.spell 0 hzero
  obtain ⟨b₁, b₂, c, rfl, -, hstarted, hentering, hdefinition, hcontext, hwait⟩ :=
    hspell.opens (h.single 0 hzero) (hidle 0 hzero) hr hfirst rfl rfl (h.stored 0 hzero) h.uncut
      (by rwa [List.append_nil])
  obtain ⟨hinst, hevent, hrunner⟩ := seed_context (q := ⟨workflow, _, _, _, _, _, _⟩) rfl r R _ _
  rw [hparked 0 hzero] at hstarted hentering
  refine ⟨b₁ ++ [.advance (e.after as).next], b₂, c, by simp, ?_, hstarted, hentering, hdefinition,
    ?_, ?_, ?_⟩
  · simpa using hwait
  · rw [Chain.inst, hcontext, hinst]
  · rw [hcontext, hevent]
  · rw [hcontext, hrunner]

/-- **Each instance but the last one executes its step, and starts a run of the next one.** -/
theorem arrives_next (h : e.Resumption F n r ev as a bs) (hstack : Stack F n event key)
    (hk : k < n) (hbs : bs = b₁ ++ b₂)
    (hc : e.Arrives (F k) r ev (e.after as).next (as ++ [a]) b₁ c below) :
    ∃ b₃ b₄ c' κ, b₂ = b₃ ++ b₄ ∧ c'.completion = some κ ∧
      (e.after (as ++ [a])).saga (F k).inst (b₁ ++ b₃) =
        [(c, .started (F k).index), (c, .executed (F k).index)] ∧
      e.Arrives (F (k + 1)) r ev (e.after as).next (as ++ [a]) (b₁ ++ b₃) c'
        (.driving (.call r c.completion) c
          (.calling (F k).index ((F k).nested.conclude c.context)) :: below) := by
  subst hbs
  obtain ⟨-, R, hr, -, hnext, hidle, hparked, -⟩ := h.begun
  obtain ⟨q, hq, hworkflow, hx', hinit, hwait, hevent⟩ := hstack.request hk hc.inst
  have hcut : .cut (e.after as).next ∉ b₂ := fun hmem => h.uncut (List.mem_append_right _ hmem)
  obtain ⟨b₃, b₄, c', rfl, hexecuted, hstarted, hentering, hdefinition, hcontext, hwaits⟩ :=
    (h.spell k hk.le).descends (h.spell (k + 1) hk) (h.single (k + 1) hk) (hidle (k + 1) hk) hr
      (hworkflow ▸ hnext k hk) hx' hinit (h.stored (k + 1) hk) hcut hc.inst
      (hc.definition ▸ hstack.nests k hk) hc.runner hq hc.doing
  obtain ⟨κ, hκ⟩ := Option.isSome_iff_exists.1 (hwaits.trans hwait)
  obtain ⟨hinst, hevent', hrunner⟩ := seed_context hinit r R (F (k + 1)).definition (F (k + 1)).inst
  rw [hparked (k + 1) hk] at hstarted hentering
  refine ⟨b₃, b₄, c', κ, rfl, hκ, ?_, hstarted, hentering, hdefinition, ?_, ?_, ?_⟩
  · rw [saga_append, hc.saga, ← after_append, hexecuted]
    rfl
  · rw [Chain.inst, hcontext, hinst]
  · rw [hcontext, hevent', hevent, hc.event]
  · rw [hcontext, hrunner]

/-- **The call gets down to every floor.** -/
theorem arrives (h : e.Resumption F n r ev as a bs) (hstack : Stack F n event key) (hk : k ≤ n) :
    ∃ b₁ b₂ c below, bs = b₁ ++ b₂ ∧
      e.Arrives (F k) r ev (e.after as).next (as ++ [a]) b₁ c below := by
  induction k with
  | zero =>
    obtain ⟨b₁, b₂, c, hbs, -, hc⟩ := h.arrives_first
    exact ⟨b₁, b₂, c, [], hbs, hc⟩
  | succ k ih =>
    obtain ⟨b₁, b₂, c, below, hbs, hc⟩ := ih (Nat.le_of_succ_le hk)
    obtain ⟨b₃, b₄, c', κ, rfl, -, -, hc'⟩ := h.arrives_next hstack hk hbs hc
    exact ⟨b₁ ++ b₃, b₄, c', _, by rw [hbs, List.append_assoc], hc'⟩

end Resumption

/-! ## The way up -/

/-- What has been done for a floor begins with the start of its run. -/
theorem Arrives.saga_append {f : Floor} {number : Nat}
    (h : e.Arrives f r ev number as b c below) (b' : List Act) :
    (e.after as).saga f.inst (b ++ b') =
      (c, .started f.index) :: (e.after (as ++ b)).saga f.inst b' := by
  rw [Engine.saga_append, h.saga, ← after_append]
  rfl

/-- A loyal definition is executed, in a history of loyal ones. -/
theorem Spell.isLoyal {D : Definition} {x : String} {number : Nat} {o : Origin} {stage : Stage}
    (h : e.Spell D x as bs)
    (hdoing : (e.after as).IsDoing number (.driving o c stage :: below)) :
    c.definition.IsLoyal := by
  have hloyal : (e.after as).Sound .loyal :=
    (h.course.new.sound .loyal).after h.course.left.loyal
  obtain ⟨t, ht, -, -, hframes⟩ := hdoing
  exact ((hloyal.tasks t ht).frames (.driving o c stage) (hframes ▸ List.mem_cons_self)).1

/-- The step of a floor was executed once more, and returned the outcome and left the context
behind; what its plan says comes next. -/
def Repeats (e : Engine) (f : Floor) (as bs : List Act) (c : Chain) (context : Context)
    (o : Outcome) : Prop :=
  ∃ run now plan q st, (e.after as).saga f.inst bs =
      (c, .started f.index) :: (c, .executed f.index) :: (c, .returned f.index o) :: run ∧
    Plan.ofOutcome f.definition context f.index now o = .ok plan ∧
    Shifts f.definition f.inst (some ({ c with context }, .acting plan)) q run st
      ((e.after (as ++ bs)).position f.inst) ∧
    (e.after (as ++ bs)).Bears f.inst st

namespace Resumption

/-- Only one run of a floor begins. -/
theorem once (h : e.Resumption F n r ev as a bs) (hk : k ≤ n) {p : Nat}
    {run : List (Chain × Deed)}
    (hsaga : (e.after (as ++ [a])).saga (F k).inst bs = (c, .started p) :: run) :
    ∀ d ∈ run, d.2.isStart = false := by
  have hone := h.single k hk
  rw [hsaga, List.countP_cons_of_pos rfl] at hone
  have hzero : run.countP (fun d => d.2.isStart) = 0 := by omega
  exact fun d hd => Bool.eq_false_iff.2 (List.countP_eq_zero.1 hzero d hd)

/-- The run that the call has begun is the last run of the floor. -/
theorem lastRun (h : e.Resumption F n r ev as a bs) (hk : k ≤ n) {p : Nat}
    {run : List (Chain × Deed)}
    (hsaga : (e.after (as ++ [a])).saga (F k).inst bs = (c, .started p) :: run) :
    e.LastRun (F k).definition (F k).inst c p run (as ++ [a] ++ bs) where
  course := (h.spell k hk).course
  began := ⟨e.saga (F k).inst (as ++ [a]), by rw [saga_append, hsaga]⟩
  once := h.once hk hsaga
  calm d hd := (h.spell k hk).calm d (hsaga ▸ List.mem_cons_of_mem _ hd)

/-- The last floor's step is executed once more. -/
theorem repeats_last (h : e.Resumption F n r ev as a bs) (hstack : Stack F n event key)
    (hbs : bs = b₁ ++ b₂)
    (hc : e.Arrives (F n) r ev (e.after as).next (as ++ [a]) b₁ c below) {context : Context}
    {o : Outcome} (ho : ∀ label, o ≠ .jump label)
    (hexecute : (Step.waitForEvent event key).execute c.context = .finish context o) :
    e.Repeats (F n) (as ++ [a]) bs c context o := by
  subst hbs
  obtain ⟨step, hstep, hstepexecute⟩ := hstack.listens
  rw [← hc.definition] at hstep
  obtain ⟨b₃, b₄, rfl, hexecuted, hinside⟩ :=
    (h.spell n le_rfl).later.executes hc.inst hstep hc.doing
  rw [hstepexecute, hexecute] at hinside
  obtain ⟨φ, q, st, run, hreturned, hshifts, hst, now, hplan⟩ :=
    (h.spell n le_rfl).later.later.returns hc.inst hinside
  obtain ⟨plan, hplan, rfl⟩ | ⟨fault, hfault, -⟩ := hplan
  · refine ⟨run, now, plan, q, st, ?_, hc.definition ▸ hplan, ?_, ?_⟩
    · rw [hc.saga_append, saga_append, hexecuted, ← after_append, hreturned]
      rfl
    · simpa only [List.append_assoc] using hshifts
    · simpa only [List.append_assoc] using hst
  · obtain ⟨label, rfl, -⟩ := Plan.error_cases hfault
    exact absurd rfl (ho label)

/-- **The step of a floor goes on with what the next floor has come to**, and not before that has
been told. -/
theorem repeats_nested (h : e.Resumption F n r ev as a bs) (hstack : Stack F n event key)
    (hk : k < n) (hbs : bs = b₁ ++ b₂) {κ : CompletionId} {c' : Chain} (hκ : c'.completion = some κ)
    (hc : e.Arrives (F k) r ev (e.after as).next (as ++ [a]) b c below')
    (hsaga : (e.after (as ++ [a])).saga (F k).inst b₁ =
      [(c, .started (F k).index), (c, .executed (F k).index)])
    (hc' : e.Arrives (F (k + 1)) r ev (e.after as).next (as ++ [a]) b₁ c'
      (.driving (.call r c.completion) c
        (.calling (F k).index ((F k).nested.conclude c.context)) :: below)) {v : Settlement}
    (htold : (e.after (as ++ [a] ++ bs)).isUnderway κ = false ∧
      (e.answers κ (as ++ [a] ++ bs) = [none] ∨
        e.answers κ (as ++ [a] ++ bs) = [some (.settled v)]))
    {leaves : Context → Context} {o : Outcome} (ho : ∀ label, o ≠ .jump label)
    (hconclude : ∀ c, (F k).nested.conclude c (.settled v) = .finish (leaves c) o) :
    e.Repeats (F k) (as ++ [a]) bs c (leaves c.context) o ∧
      ∃ b₃ b₄, b₂ = b₃ ++ b₄ ∧ some (.settled v) ∈ e.answers κ (as ++ [a] ++ (b₁ ++ b₃)) ∧
        (e.after (as ++ [a])).saga (F k).inst (b₁ ++ b₃) =
          [(c, .started (F k).index), (c, .executed (F k).index)] := by
  subst hbs
  obtain ⟨t, ht, -, -, hframes⟩ := hc'.doing
  have hawaits : t.Awaits κ (.driving (.call r c.completion) c
      (.calling (F k).index ((F k).nested.conclude c.context))) below := by
    refine ⟨[], _, hframes, ?_⟩
    exact hκ
  rw [← List.append_assoc] at htold
  obtain ⟨b₃, b₄, φ, q, st, run, rfl, hanswer, hsilent, hreturned, hshifts, hst, now, hplan⟩ :=
    (h.spell k hk.le).later.returns_nested ht hawaits hc.inst (hc.definition ▸ hstack.nests k hk)
      htold.1 htold.2 hconclude
  rw [List.append_assoc _ b₁] at hanswer
  have hsaga' : (e.after (as ++ [a])).saga (F k).inst (b₁ ++ b₃) =
      [(c, .started (F k).index), (c, .executed (F k).index)] := by
    rw [saga_append, hsaga, ← after_append, hsilent]
    rfl
  obtain ⟨plan, hplan, rfl⟩ | ⟨fault, hfault, -⟩ := hplan
  · refine ⟨⟨run, now, plan, q, st, ?_, hc.definition ▸ hplan, ?_, ?_⟩, b₃, b₄, rfl, hanswer,
      hsaga'⟩
    · rw [← List.append_assoc, saga_append, hsaga', ← after_append, ← List.append_assoc, hreturned]
      rfl
    · simpa only [List.append_assoc] using hshifts
    · simpa only [List.append_assoc] using hst
  · obtain ⟨label, rfl, -⟩ := Plan.error_cases hfault
    exact absurd rfl (ho label)

/-! ### What comes of a step that is executed once more -/

/-- A step that goes on saves the position behind it. -/
theorem goes_on (h : e.Resumption F n r ev as a bs) (hk : k ≤ n) {context : Context}
    (hrepeats : e.Repeats (F k) (as ++ [a]) bs c context .proceed) :
    ∃ c' run st, (e.after (as ++ [a])).saga (F k).inst bs =
        (c, .started (F k).index) :: (c, .executed (F k).index) ::
          (c, .returned (F k).index .proceed) ::
            ({ c with context }, .saved ((F k).index + 1)) :: run ∧
      c'.context = context ∧ c'.definition = c.definition ∧
      Shifts (F k).definition (F k).inst (some (c', .entering ((F k).index + 1)))
        ((F k).index + 1) run st ((e.after (as ++ [a] ++ bs)).position (F k).inst) ∧
      (e.after (as ++ [a] ++ bs)).Bears (F k).inst st := by
  obtain ⟨run, now, plan, q, st, hsaga, hplan, hshifts, hst⟩ := hrepeats
  cases hplan
  have hspell := h.spell k hk
  have hcalm : ∀ d ∈ run, d.2.isMishap = false := fun d hd => by
    refine hspell.calm d ?_
    rw [hsaga]
    exact List.mem_cons_of_mem _ (List.mem_cons_of_mem _ (List.mem_cons_of_mem _ hd))
  have hstill := hspell.course.new.isStill_of_isAtRest hspell.rest hst
  obtain ⟨c', run', rfl, hcontext, hdefinition, hshifts'⟩ := hshifts.advances hcalm hstill
  exact ⟨c', run', st, hsaga, hcontext, hdefinition, hshifts', hst⟩

/-- **A floor whose remaining steps go on completes.** -/
theorem completes (h : e.Resumption F n r ev as a bs) (hstack : Stack F n event key) (hk : k ≤ n)
    (hbs : bs = b ++ b') (hc : e.Arrives (F k) r ev (e.after as).next (as ++ [a]) b c below)
    {context : Context} (hinst : context.inst = (F k).inst)
    (hrepeats : e.Repeats (F k) (as ++ [a]) bs c context .proceed)
    (hproceeds : Deed.Proceeds ((F k).index + 1) ((e.after (as ++ [a])).story (F k).inst bs)) :
    ∃ output, (e.after (as ++ [a])).story (F k).inst bs = (F k).completing output ∧
      (e.after (as ++ [a] ++ bs)).position (F k).inst = (F k).definition.size ∧
      (e.after (as ++ [a] ++ bs)).IsThrough (F k).inst := by
  obtain ⟨c', run, st, hsaga, hcontext, hdefinition, hshifts, hst⟩ := h.goes_on hk hrepeats
  have hspell := h.spell k hk
  have hrun : ∀ d ∈ run, d ∈ (e.after (as ++ [a])).saga (F k).inst bs := fun d hd => by
    rw [hsaga]
    simp [hd]
  have hsize := hstack.lt_size hk
  have hstory : (e.after (as ++ [a])).story (F k).inst bs =
      [.started (F k).index, .executed (F k).index, .returned (F k).index .proceed,
        .saved ((F k).index + 1)] ++ run.map Prod.snd := by
    rw [← map_snd_saga, hsaga]
    rfl
  rw [hstory] at hproceeds ⊢
  have honce : ∀ d ∈ run, d.2.isStart = false := fun d hd =>
    h.once hk hsaga d (by simp [hd])
  obtain ⟨output, hdeeds, rfl, hposition⟩ := hshifts.proceeds
    (fun d hd => hspell.calm d (hrun d hd))
    (hspell.course.new.isStill_of_isAtRest hspell.rest hst) honce (hdefinition.trans hc.definition)
    (hc.definition ▸ (hbs ▸ hspell).later.isLoyal hc.doing)
    ((congrArg Context.inst hcontext).trans hinst)
    (n := (F k).definition.size - ((F k).index + 1)) (by omega)
    (hproceeds.later le_rfl (by simp))
  refine ⟨output, ?_, hposition, hst.isThrough⟩
  have hsucc : (F k).definition.size - (F k).index =
      (F k).definition.size - ((F k).index + 1) + 1 := by omega
  rw [hdeeds, Floor.completing, hsucc]
  rfl

/-- **A floor that is to wait parks again.** -/
theorem parks (h : e.Resumption F n r ev as a bs) (hk : k ≤ n)
    (hc : c.definition = (F k).definition) {context : Context} (hinst : context.inst = (F k).inst)
    {message : String} (hrepeats : e.Repeats (F k) (as ++ [a]) bs c context (.wait message)) :
    (e.after (as ++ [a])).story (F k).inst bs = (F k).parking message ∧
      (e.after (as ++ [a] ++ bs)).position (F k).inst = (F k).index ∧
      (e.after (as ++ [a] ++ bs)).IsThrough (F k).inst := by
  obtain ⟨run, now, plan, q, st, hsaga, hplan, hshifts, hst⟩ := hrepeats
  cases hplan
  have hspell := h.spell k hk
  have hrun : ∀ d ∈ run, d ∈ (e.after (as ++ [a])).saga (F k).inst bs := fun d hd => by
    rw [hsaga]
    simp [hd]
  have honce : ∀ d ∈ run, d.2.isStart = false := fun d hd =>
    h.once hk hsaga d (by simp [hd])
  obtain ⟨hdeeds, rfl, hposition⟩ := hshifts.finale (fun d hd => hspell.calm d (hrun d hd))
    (hspell.course.new.isStill_of_isAtRest hspell.rest hst) honce
  refine ⟨?_, hposition, hst.isThrough⟩
  rw [← map_snd_saga, hsaga, List.map_cons, List.map_cons, List.map_cons, hdeeds]
  simp [Floor.parking, Deed.parking, Effect.deed, Chain.notice, Chain.inst, Plan.resultOf, hinst,
    hc]

/-! ### What is told, and when -/

/-- **A floor is told that the next one has completed no sooner than that has been published.** -/
theorem published_of_told (h : e.Resumption F n r ev as a bs) (hk : k ≤ n) {b₃ b₄ : List Act}
    (hbs : bs = b₁ ++ (b₃ ++ b₄)) {κ : CompletionId} (hκ : c.completion = some κ)
    (hc : e.Arrives (F k) r ev (e.after as).next (as ++ [a]) b₁ c below) {output : Option Json}
    (hstory : (e.after (as ++ [a])).story (F k).inst bs = (F k).completing output)
    (htold : some (.settled (.ok ⟨(F k).inst, .completed, output⟩)) ∈
      e.answers κ (as ++ [a] ++ (b₁ ++ b₃))) :
    .published ⟨(F k).inst, (F k).definition.name, .completed⟩ ∈
      (e.after (as ++ [a])).story (F k).inst (b₁ ++ b₃) := by
  have hcourse := (h.spell k hk).course
  rw [hbs, ← List.append_assoc b₁, ← List.append_assoc] at hcourse
  have hsaga := hc.saga_append b₃
  have honce : ∀ d ∈ (e.after (as ++ [a] ++ b₁)).saga (F k).inst b₃, d.2.isStart = false := by
    have hwhole := hc.saga_append (b₃ ++ b₄)
    rw [← hbs, saga_append] at hwhole
    exact fun d hd => h.once hk hwhole d (List.mem_append_left _ hd)
  have htale : e.tale κ (as ++ [a] ++ (b₁ ++ b₃)) =
      Deed.owed ((e.after (as ++ [a])).story (F k).inst (b₁ ++ b₃)) := by
    have hstart : e.saga (F k).inst (as ++ [a] ++ (b₁ ++ b₃)) = e.saga (F k).inst (as ++ [a]) ++
        (c, .started (F k).index) :: (e.after (as ++ [a] ++ b₁)).saga (F k).inst b₃ := by
      rw [saga_append, hsaga]
    rw [← map_snd_saga, hsaga]
    exact hcourse.left.tale_eq_owed hstart honce hκ
  have hbefore : ∀ d ∈ e.tale κ (as ++ [a] ++ (b₁ ++ b₃)),
      d ∈ (e.after (as ++ [a])).story (F k).inst (b₁ ++ b₃) := fun d hd =>
    (Deed.owed_prefix _).subset (htale ▸ hd)
  have hlater : ∀ d ∈ (e.after (as ++ [a])).story (F k).inst (b₁ ++ b₃),
      d ∈ (F k).completing output := by
    intro d hd
    rw [← hstory, hbs, ← List.append_assoc, ← map_snd_saga]
    exact (((e.after (as ++ [a])).saga_mono _ (List.prefix_append _ _)).map _).subset hd
  have hpanic : ∀ d ∈ e.tale κ (as ++ [a] ++ (b₁ ++ b₃)), d.isPanic = false := fun d hd =>
    Deed.isPanic_of_isExit (Floor.isExit_of_mem_completing (hlater d (hbefore d hd)))
  have hverdict := hcourse.new.verdict_of_answer hpanic htold
  have hlost : .lost ∉ e.tale κ (as ++ [a] ++ (b₁ ++ b₃)) := by
    intro hlost
    cases hverdict.1 hlost
  obtain ⟨-, workflow, hpublished⟩ := ((hverdict.2 hlost).completed _ _).1 rfl
  obtain rfl := Floor.workflow_eq_of_mem_completing (hlater _ (hbefore _ hpublished))
  exact hbefore _ hpublished

/-- **The call returns what the run of the first instance has come to.** -/
theorem call_returns (h : e.Resumption F n r ev as a bs) {result : RunResult}
    (hstopped : ∀ result', .stopped result' ∈ (e.after (as ++ [a])).story (F 0).inst bs →
      result' = result)
    (hexit : ∀ d ∈ (e.after (as ++ [a])).story (F 0).inst bs, d.isExit = false)
    (hthrough : (e.after (as ++ [a] ++ bs)).IsThrough (F 0).inst) :
    ((e.after as).next, .returned (.ok result)) ∈ (e.after (as ++ [a] ++ bs)).endings := by
  obtain ⟨b₁, b₂, c, rfl, hnone, hc⟩ := h.arrives_first
  have hspell := h.spell 0 (Nat.zero_le n)
  have hserves : (e.after (as ++ [a] ++ b₁)).Serves (e.after as).next (F 0).inst := by
    obtain ⟨t, ht, hnumber, -, hframes⟩ := hc.doing
    rw [hnone] at hframes
    exact ⟨t, ht, hnumber, [], r, c, _, hframes, hc.inst⟩
  have hcourse := hspell.course
  rw [← List.append_assoc] at hcourse hthrough ⊢
  have hloyal : (e.after (as ++ [a] ++ b₁)).Sound .loyal :=
    (hcourse.new.sound .loyal).after hcourse.left.loyal
  have hlater : ∀ d ∈ (e.after (as ++ [a] ++ b₁)).story (F 0).inst b₂,
      d ∈ (e.after (as ++ [a])).story (F 0).inst (b₁ ++ b₂) := by
    intro d hd
    rw [← map_snd_saga, saga_append, ← after_append, List.map_append]
    exact List.mem_append_right _ hd
  have hbs : ∀ b ∈ b₂, b.Meets .loyal := fun b hb =>
    hcourse.loyal b (List.mem_append_right _ hb)
  rw [after_append _ _ b₂] at hthrough ⊢
  obtain ⟨t, ht, -, above, r', c', stage, hframes, hinst⟩ | ⟨result', hresult, hended⟩ |
    ⟨d, hd, hd'⟩ := hloyal.serves_after hserves hbs
  · refine absurd hinst (hthrough c' (List.mem_append_left _ ?_))
    refine List.mem_filterMap.2 ⟨.driving (.call r' none) c' stage, ?_, rfl⟩
    exact List.mem_flatMap.2 ⟨t, ht, by simp [hframes]⟩
  · rw [← hstopped result' (hlater _ hresult)]
    exact hended
  · rw [hexit d (hlater d hd)] at hd'
    cases hd'

/-- What has been done for a floor, other than the start, belongs to its last run. -/
theorem mem_run (h : e.Resumption F n r ev as a bs) (hk : k ≤ n) (hbs : bs = b₁ ++ b₂)
    (hc : e.Arrives (F k) r ev (e.after as).next (as ++ [a]) b₁ c below) :
    ∃ run, e.LastRun (F k).definition (F k).inst c (F k).index run (as ++ [a] ++ bs) ∧
      ∀ d ∈ (e.after (as ++ [a])).story (F k).inst bs, d ≠ .started (F k).index →
        d ∈ run.map Prod.snd := by
  have hsaga := hc.saga_append b₂
  rw [← hbs] at hsaga
  refine ⟨_, h.lastRun hk hsaga, fun d hd hne => ?_⟩
  rw [← map_snd_saga, hsaga] at hd
  exact (List.mem_cons.1 hd).resolve_left hne

/-- That the next floor has completed lets the step of a floor go on, after that has been
published. -/
theorem repeats_of_completed (h : e.Resumption F n r ev as a bs) (hstack : Stack F n event key)
    (hk : k < n) {output : Option Json}
    (hstory : (e.after (as ++ [a])).story (F (k + 1)).inst bs = (F (k + 1)).completing output) :
    (∃ b₁ b₂ c below context, bs = b₁ ++ b₂ ∧
      e.Arrives (F k) r ev (e.after as).next (as ++ [a]) b₁ c below ∧
      context.inst = (F k).inst ∧ e.Repeats (F k) (as ++ [a]) bs c context .proceed) ∧
    ∀ b, b <+: bs → .returned (F k).index .proceed ∈ (e.after (as ++ [a])).story (F k).inst b →
      .published ⟨(F (k + 1)).inst, (F (k + 1)).definition.name, .completed⟩ ∈
        (e.after (as ++ [a])).story (F (k + 1)).inst b := by
  obtain ⟨b₁, b₂, c, below, hbs, hc⟩ := h.arrives hstack hk.le
  obtain ⟨b₃, b₄, c', κ, rfl, hκ, hsaga, hc'⟩ := h.arrives_next hstack hk hbs hc
  have hbs' : bs = b₁ ++ b₃ ++ b₄ := by rw [hbs, List.append_assoc]
  obtain ⟨run, hlast, hrun⟩ := h.mem_run hk hbs' hc'
  have hpassed : .passed output ∈ run.map Prod.snd :=
    hrun _ (hstory ▸ Floor.passed_mem_completing) (by simp)
  have htold := hlast.told_completing (h.spell (k + 1) hk).rest hκ hpassed
  obtain ⟨hrepeats, b₅, b₆, rfl, hanswer, hsilent⟩ :=
    h.repeats_nested hstack hk hbs' hκ hc hsaga hc' htold (fun label => by simp)
      fun c => Nested.conclude_completed (hstack.waits k hk) c _ output
  refine ⟨⟨b₁, b₃ ++ (b₅ ++ b₆), c, below, _, hbs, hc, ?_, hrepeats⟩, fun b hb hreturned => ?_⟩
  · rw [← hc.inst]
    cases output <;> rfl
  · -- The step has not returned before the next floor has been told of.
    have hpublished := h.published_of_told hk hbs' hκ hc' hstory hanswer
    have hprefix : b₁ ++ b₃ ++ b₅ <+: bs := by rw [hbs', ← List.append_assoc]; simp
    obtain hbefore | hafter := List.prefix_or_prefix_of_prefix hb hprefix
    · have hmem := (((e.after (as ++ [a])).saga_mono (F k).inst hbefore).map Prod.snd).subset
        hreturned
      rw [hsilent] at hmem
      simp at hmem
    · exact (((e.after (as ++ [a])).saga_mono (F (k + 1)).inst hafter).map Prod.snd).subset
        hpublished

/-- That the next floor has parked lets the step of a floor park. -/
theorem repeats_of_parked (h : e.Resumption F n r ev as a bs) (hstack : Stack F n event key)
    (hk : k < n) {message : String}
    (hstory : (e.after (as ++ [a])).story (F (k + 1)).inst bs = (F (k + 1)).parking message) :
    ∃ b₁ b₂ c below message', bs = b₁ ++ b₂ ∧
      e.Arrives (F k) r ev (e.after as).next (as ++ [a]) b₁ c below ∧
      e.Repeats (F k) (as ++ [a]) bs c c.context (.wait message') := by
  obtain ⟨b₁, b₂, c, below, hbs, hc⟩ := h.arrives hstack hk.le
  obtain ⟨b₃, b₄, c', κ, rfl, hκ, hsaga, hc'⟩ := h.arrives_next hstack hk hbs hc
  have hbs' : bs = b₁ ++ b₃ ++ b₄ := by rw [hbs, List.append_assoc]
  obtain ⟨run, hlast, hrun⟩ := h.mem_run hk hbs' hc'
  have hreturned : .returned (F (k + 1)).index (.wait message) ∈ run.map Prod.snd :=
    hrun _ (by simp [hstory, Floor.parking, Deed.parking]) (by simp)
  have htold := hlast.told_parking (h.spell (k + 1) hk).rest hκ hreturned
  obtain ⟨hrepeats, -⟩ :=
    h.repeats_nested hstack hk hbs' hκ hc hsaga hc' htold (fun label => by simp)
      fun c => Nested.conclude_waiting (hstack.waits k hk) c _
  exact ⟨b₁, b₃ ++ b₄, c, below, _, hbs, hc, hrepeats⟩

/-- The step of the last floor takes the event. -/
theorem takes (h : e.Resumption F n r ev as a bs) (hstack : Stack F n event key)
    (hname : ev.name = event) :
    ∃ b₁ b₂ c below, bs = b₁ ++ b₂ ∧
      e.Arrives (F n) r ev (e.after as).next (as ++ [a]) b₁ c below ∧
      e.Repeats (F n) (as ++ [a]) bs c (c.context.keep (key.getD event) ev.payload) .proceed := by
  subst hname
  obtain ⟨b₁, b₂, c, below, hbs, hc⟩ := h.arrives hstack le_rfl
  exact ⟨b₁, b₂, c, below, hbs, hc, h.repeats_last hstack hbs hc (fun label => by simp)
    (Step.execute_waitForEvent hc.event key)⟩

/-- **If the remaining steps of all floors go on, every floor completes.** -/
theorem all_complete (h : e.Resumption F n r ev as a bs) (hstack : Stack F n event key)
    (hname : ev.name = event) (hproceeds : ∀ k ≤ n,
      Deed.Proceeds ((F k).index + 1) ((e.after (as ++ [a])).story (F k).inst bs)) (hk : k ≤ n) :
    ∃ output, (e.after (as ++ [a])).story (F k).inst bs = (F k).completing output ∧
      (e.after (as ++ [a] ++ bs)).position (F k).inst = (F k).definition.size ∧
      (e.after (as ++ [a] ++ bs)).IsThrough (F k).inst := by
  induction hk using Nat.decreasingInduction with
  | self =>
    obtain ⟨b₁, b₂, c, below, hbs, hc, hrepeats⟩ := h.takes hstack hname
    have hinst : (c.context.keep (key.getD event) ev.payload).inst = (F n).inst := hc.inst
    exact h.completes hstack le_rfl hbs hc hinst hrepeats (hproceeds n le_rfl)
  | of_succ k hk ih =>
    obtain ⟨output, hstory, -⟩ := ih
    obtain ⟨⟨b₁, b₂, c, below, context, hbs, hc, hinst, hrepeats⟩, -⟩ :=
      h.repeats_of_completed hstack hk hstory
    exact h.completes hstack hk.le hbs hc hinst hrepeats (hproceeds k hk.le)

/-- **With an event of another name, every floor parks again.** -/
theorem all_park (h : e.Resumption F n r ev as a bs) (hstack : Stack F n event key)
    (hname : ev.name ≠ event) (hk : k ≤ n) :
    ∃ message, (e.after (as ++ [a])).story (F k).inst bs = (F k).parking message ∧
      (e.after (as ++ [a] ++ bs)).position (F k).inst = (F k).index ∧
      (e.after (as ++ [a] ++ bs)).IsThrough (F k).inst := by
  induction hk using Nat.decreasingInduction with
  | self =>
    obtain ⟨b₁, b₂, c, below, hbs, hc⟩ := h.arrives hstack le_rfl
    obtain ⟨message, hexecute⟩ := Step.execute_waitForEvent_of_ne hc.event hname key
    have hrepeats := h.repeats_last hstack hbs hc (fun label => by simp) hexecute
    exact ⟨message, h.parks le_rfl hc.definition hc.inst hrepeats⟩
  | of_succ k hk ih =>
    obtain ⟨message, hstory, -⟩ := ih
    obtain ⟨b₁, b₂, c, below, message', -, hc, hrepeats⟩ := h.repeats_of_parked hstack hk hstory
    exact ⟨message', h.parks hk.le hc.definition hc.inst hrepeats⟩

/-- **A resumption reaches the last instance of the stack.** If the event is the one that its step
waits for, the step takes it, keeps the payload under its key and goes on. If then the remaining
steps of all instances come to their ends and go on, each instance executes its step and every
remaining one once, one after the other, and completes, with its position behind the last step; the
step of an instance returns only after the completion of the next instance has been published; and
the call returns that the first instance has completed. With an event of another name, each instance
executes its step and parks there again, and the call returns that the first instance waits. -/
theorem reaches (h : e.Resumption F n r ev as a bs) (hstack : Stack F n event key) :
    (ev.name = event →
      (∃ c c' run, (e.after (as ++ [a])).saga (F n).inst bs =
          (c, .started (F n).index) :: (c, .executed (F n).index) ::
            (c, .returned (F n).index .proceed) :: (c', .saved ((F n).index + 1)) :: run ∧
        c'.context = c.context.keep (key.getD event) ev.payload) ∧
      ((∀ k ≤ n, Deed.Proceeds ((F k).index + 1) ((e.after (as ++ [a])).story (F k).inst bs)) →
        (∀ k ≤ n, ∃ output,
          (e.after (as ++ [a])).story (F k).inst bs = (F k).completing output ∧
          (e.after (as ++ [a] ++ bs)).position (F k).inst = (F k).definition.size) ∧
        (∀ k < n, ∀ b, b <+: bs →
          .returned (F k).index .proceed ∈ (e.after (as ++ [a])).story (F k).inst b →
          .published ⟨(F (k + 1)).inst, (F (k + 1)).definition.name, .completed⟩ ∈
            (e.after (as ++ [a])).story (F (k + 1)).inst b) ∧
        ∃ output, ((e.after as).next, .returned (.ok ⟨(F 0).inst, .completed, output⟩)) ∈
          (e.after (as ++ [a] ++ bs)).endings)) ∧
    (ev.name ≠ event →
      (∀ k ≤ n, ∃ message,
        (e.after (as ++ [a])).story (F k).inst bs = (F k).parking message ∧
        (e.after (as ++ [a] ++ bs)).position (F k).inst = (F k).index) ∧
      ((e.after as).next, .returned (.ok ⟨(F 0).inst, .waiting, none⟩)) ∈
        (e.after (as ++ [a] ++ bs)).endings) := by
  refine ⟨fun hname => ⟨?_, fun hproceeds => ⟨fun k hk => ?_, fun k hk => ?_, ?_⟩⟩,
    fun hname => ⟨fun k hk => ?_, ?_⟩⟩
  · obtain ⟨b₁, b₂, c, below, -, -, hrepeats⟩ := h.takes hstack hname
    obtain ⟨c', run, st, hsaga, -⟩ := h.goes_on le_rfl hrepeats
    exact ⟨c, _, run, hsaga, rfl⟩
  · obtain ⟨output, hstory, hposition, -⟩ := h.all_complete hstack hname hproceeds hk
    exact ⟨output, hstory, hposition⟩
  · obtain ⟨output, hstory, -⟩ := h.all_complete hstack hname hproceeds (Nat.succ_le_of_lt hk)
    exact (h.repeats_of_completed hstack hk hstory).2
  · obtain ⟨output, hstory, -, hthrough⟩ :=
      h.all_complete hstack hname hproceeds (Nat.zero_le n)
    refine ⟨output, h.call_returns (fun result hresult => ?_) (fun d hd => ?_) hthrough⟩
    · exact Floor.result_eq_of_mem_completing (hstory ▸ hresult)
    · exact Floor.isExit_of_mem_completing (hstory ▸ hd)
  · obtain ⟨message, hstory, hposition, -⟩ := h.all_park hstack hname hk
    exact ⟨message, hstory, hposition⟩
  · obtain ⟨message, hstory, -, hthrough⟩ := h.all_park hstack hname (Nat.zero_le n)
    refine h.call_returns (fun result hresult => ?_) (fun d hd => ?_) hthrough
    · rw [hstory] at hresult
      simpa [Floor.parking, Deed.parking] using hresult
    · rw [hstory] at hd
      simp only [Floor.parking, Deed.parking, List.mem_cons, List.not_mem_nil, or_false] at hd
      obtain rfl | rfl | rfl | rfl | rfl | rfl | rfl := hd <;> rfl

end Resumption

end Engine

/-! ## Three instances -/

namespace ResumedLevels

/-- A workflow that waits for an event and then does something else. -/
def leaf : Definition :=
  ⟨"leaf", [.waitForEvent "go" (some "answer"), .deciding fun _ => .proceed]⟩

def middle : Definition := ⟨"middle", [(ThreeLevels.nested "leaf" "c").step]⟩

def top : Definition :=
  ⟨"top", [(ThreeLevels.nested "middle" "b").step, .deciding fun _ => .proceed]⟩

def registry : Registry :=
  ⟨((Table.empty.put "leaf" leaf).put "middle" middle).put "top" top⟩

def engine : Engine := { scheduler := { timers := { start := ⟨0⟩ } }, identity := fun _ => "" }

/-- The first instance is run, until all three are parked. -/
def before : List Act :=
  [.addRunner registry .empty, .run ⟨0⟩ (.root 0) { workflow := "top", inst := some "a" }] ++
    .replicate 27 (.advance 2)

/-- The first instance is resumed. -/
def call : Act := .resume ⟨0⟩ (.root 1) "top" "a" ⟨"go", .text "yes"⟩

/-- All the way down and up again. -/
def after : List Act := .replicate 41 (.advance 6)

def floors : Nat → Floor
  | 0 => ⟨"a", top, 0, ThreeLevels.nested "middle" "b"⟩
  | 1 => ⟨"b", middle, 0, ThreeLevels.nested "leaf" "c"⟩
  | _ => ⟨"c", leaf, 0, ThreeLevels.nested "leaf" "c"⟩

theorem meets_acts {S : Standard} (h : ∀ d ∈ [leaf, middle, top], S.definition d) :
    ∀ a ∈ before ++ [call] ++ after, a.Meets S := by
  have hregistry : registry.Meets S :=
    ((Registry.meets_empty.put _ (h leaf (by simp))).put _ (h middle (by simp))).put _
      (h top (by simp))
  exact Act.forall_meets hregistry rfl

theorem isLoyal : ∀ d ∈ [leaf, middle, top], d.IsLoyal := by
  intro d hd s hs
  simp only [List.mem_cons, List.not_mem_nil, or_false] at hd
  obtain rfl | rfl | rfl := hd
  · simp only [leaf, List.mem_cons, List.not_mem_nil, or_false] at hs
    obtain rfl | rfl := hs
    exacts [Step.isLoyal_waitForEvent _ _, Step.isLoyal_deciding _]
  · obtain rfl := List.mem_singleton.1 hs
    exact Nested.isLoyal_nested _
  · simp only [top, List.mem_cons, List.not_mem_nil, or_false] at hs
    obtain rfl | rfl := hs
    exacts [Nested.isLoyal_nested _, Step.isLoyal_deciding _]

theorem stack : Stack floors 2 "go" (some "answer") where
  nests k hk := by
    obtain rfl | rfl : k = 0 ∨ k = 1 := by omega
    exacts [⟨_, rfl, rfl⟩, ⟨_, rfl, rfl⟩]
  waits k hk := by
    obtain rfl | rfl : k = 0 ∨ k = 1 := by omega
    exacts [rfl, rfl]
  chooses k hk := by
    obtain rfl | rfl : k = 0 ∨ k = 1 := by omega
    exacts [⟨_, rfl, fun _ _ => rfl⟩, ⟨_, rfl, fun _ _ => rfl⟩]
  yields k hk select hselect := by
    obtain rfl | rfl : k = 0 ∨ k = 1 := by omega
    all_goals cases hselect
  listens := ⟨_, rfl, rfl⟩

theorem isAtRest : (engine.after (before ++ [call] ++ after)).IsAtRest :=
  Engine.isAtRest_of_isEmpty (by decide +kernel)

theorem course {D : Definition} {x : String}
    (hname : ∀ d ∈ [leaf, middle, top], d.name = D.name → d = D)
    (hchains : ∀ n < (before ++ [call] ++ after).length + 1,
      (((engine.after ((before ++ [call] ++ after).take n)).chains.filter fun c =>
        c.inst == x).map fun c => c.definition.name) ∈ [[], [D.name]]) :
    engine.Course D x (before ++ [call] ++ after) :=
  .of_among ⟨rfl, rfl, rfl, rfl⟩ (meets_acts isLoyal) (meets_acts fun _ hd => hd) hname hchains

theorem resumption : engine.Resumption floors 2 ⟨0⟩ ⟨"go", .text "yes"⟩ before call after where
  called := by
    refine ⟨.root 1, "top", _, rfl, rfl, rfl, fun k hk => ?_⟩
    obtain rfl | rfl : k = 0 ∨ k = 1 := by omega
    exacts [rfl, rfl]
  idle k hk := by
    show ∀ c ∈ (engine.after before).chains, c.inst ≠ (floors k).inst
    obtain rfl | rfl | rfl : k = 0 ∨ k = 1 ∨ k = 2 := by omega
    all_goals decide +kernel
  parked k hk := by
    obtain rfl | rfl | rfl : k = 0 ∨ k = 1 ∨ k = 2 := by omega
    all_goals decide +kernel
  spell k hk := by
    obtain rfl | rfl | rfl : k = 0 ∨ k = 1 ∨ k = 2 := by omega
    all_goals
      exact ⟨course (by simp [leaf, middle, top, floors]) (by decide +kernel), isAtRest,
        by decide +kernel⟩
  single k hk := by
    obtain rfl | rfl | rfl : k = 0 ∨ k = 1 ∨ k = 2 := by omega
    all_goals decide +kernel
  stored k hk b hb := by
    have htold : ∀ m < 42, ((engine.after (before ++ [call] ++ after.take m)).load
        (floors k).inst).2.toOption.join.isSome = true := by
      obtain rfl | rfl | rfl : k = 0 ∨ k = 1 ∨ k = 2 := by omega
      all_goals decide +kernel
    have hlength : b.length < 42 := Nat.lt_succ_of_le hb.length_le
    rw [List.prefix_iff_eq_take.1 hb]
    specialize htold b.length hlength
    generalize ((engine.after (before ++ [call] ++ after.take b.length)).load
      (floors k).inst).2 = found at htold ⊢
    cases found with
    | error _ => cases htold
    | ok p =>
      obtain ⟨p, rfl⟩ := Option.isSome_iff_exists.1 htold
      exact ⟨p, rfl⟩
  uncut := by
    intro hcut
    cases (List.mem_replicate.1 hcut).2

theorem proceeds : ∀ k ≤ 2, Deed.Proceeds ((floors k).index + 1)
    ((engine.after (before ++ [call])).story (floors k).inst after) := by
  intro k hk
  have hstory : (engine.after (before ++ [call])).story (floors k).inst after =
      (floors k).completing none := by
    obtain rfl | rfl | rfl : k = 0 ∨ k = 1 ∨ k = 2 := by omega
    all_goals rfl
  rw [hstory]
  exact Floor.proceeds_completing

/-- The event has got to the last instance, and the call returns. -/
theorem answered :
    (∃ c c' run, (engine.after (before ++ [call])).saga "c" after =
        (c, .started 0) :: (c, .executed 0) :: (c, .returned 0 .proceed) :: (c', .saved 1) :: run ∧
      c'.context = c.context.keep "answer" (.text "yes")) ∧
    ∃ output, (6, .returned (.ok ⟨"a", .completed, output⟩)) ∈
      (engine.after (before ++ [call] ++ after)).endings := by
  obtain ⟨hmatch, -⟩ := resumption.reaches stack
  obtain ⟨htakes, hcompletes⟩ := hmatch rfl
  obtain ⟨-, -, hreturns⟩ := hcompletes proceeds
  exact ⟨htakes, hreturns⟩

/-- A workflow with one nested step, whose input is selected like that. -/
def asking (input : Option (Selector Json)) : Definition :=
  ⟨"top", [{ ThreeLevels.nested "leaf" "c" with input }.step]⟩

/-- Two instances are parked, the first one at the nested step, which leads to the second one. -/
def parked : Engine :=
  { engine with store := { backing := .memory ((Table.empty.put "a" 0).put "c" 0) } }

/-- The first instance is resumed with the event that the second one waits for. -/
def resumed (input : Option (Selector Json)) : List Act :=
  [.addRunner ⟨(Table.empty.put "leaf" leaf).put "top" (asking input)⟩ .empty,
    .resume ⟨0⟩ (.root 0) "top" "a" ⟨"go", .text "yes"⟩] ++ .replicate 20 (.advance 2)

/-- The event does not get to the second instance if the input cannot be selected in the context of
a resumed run, and the second instance does not go on if the store refuses its position. In both cases
the call returns a failure. -/
theorem unanswered :
    (parked.position "a" = 0 ∧ parked.position "c" = 0 ∧
      (parked.after (resumed (some fun _ => .error (.text "no input")))).tasks = [] ∧
      parked.story "c" (resumed (some fun _ => .error (.text "no input"))) = [] ∧
      (parked.after (resumed (some fun _ => .error (.text "no input")))).endings =
        [(2, .returned (.ok ⟨"a", .failed, none⟩))]) ∧
    ({ parked with store := { parked.store with failsSaveAt := fun _ => true } }.after
      (resumed none)).endings = [(2, .returned (.ok ⟨"a", .failed, none⟩))] ∧
    ({ parked with store := { parked.store with failsSaveAt := fun _ => true } }.after
      (resumed none)).position "c" = 0 := by
  refine ⟨⟨by decide +kernel, by decide +kernel, rfl, rfl, rfl⟩, rfl, by decide +kernel⟩

end ResumedLevels

end DurableFlow
