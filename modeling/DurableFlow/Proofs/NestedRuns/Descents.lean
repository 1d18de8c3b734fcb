import DurableFlow.Proofs.NestedRuns.UnawaitedCalls
import DurableFlow.Proofs.NestedRuns.Ladders
import DurableFlow.Proofs.Runs.Progress

/-!
# Descents into nested runs

How a task gets from a chain that is before a nested step to the nested run: the step is executed,
finds its runner, and launches its request, which starts a chain at the position that the store has
for the nested instance.

Main statements: the moves one by one (`Engine.Spell.executes`, `Engine.Spell.launches`,
`Engine.Spell.opens`), and all of them (`Engine.Spell.descends`).
-/

namespace DurableFlow

/-- A nested step that finds its runner launches its request. -/
theorem Nested.start_of_runner {s : Nested} {c : Context} {r : RunnerId} {q : Request}
    (hrunner : c.services.get? .runner = some r) (hq : s.request c = .ok q) :
    ∃ next, s.start c = .locate r next ∧ next true = .launch c r q (s.conclude c) := by
  simp [start, hrunner, hq]

namespace Engine

variable {S : Standard} {e m : Engine} {as bs : List Act} {a : Act} {r : RunnerId} {R : Runner}
  {t : Task} {n : Nat} {o : Origin} {P : Chain} {i : Nat} {below : List Frame}

/-! ## Moves of a task on its way down -/

/-- A chain that is before a step executes it, unless it is cancelled. -/
theorem Sound.advance_entering (h : m.Sound .any) {step : Step}
    (hdoing : m.IsDoing n (.driving o P (.entering i) :: below))
    (hstep : P.definition.step? i = some step) :
    (m.act (.advance n)).IsDoing n (.driving o P (.halting .cancelled) :: below) ∨
      m.deeds (.advance n) = [(P, .executed i)] ∧
        (m.act (.advance n)).IsDoing n
          (.driving o P (.inside i (step.execute P.context)) :: below) := by
  obtain ⟨t, ht, rfl, hp, hframes⟩ := hdoing
  have hsize : ¬ P.definition.size ≤ i :=
    Nat.not_le.2 (Definition.within_execute hstep P.context).lt_size
  cases hcancelled : m.isCancelled t.token with
  | true =>
    have hmove : m.move t = .on m (t.doing (.driving o P (.halting .cancelled) :: below)) := by
      simp [move_driving hp hframes, moveDriving, hstep, hcancelled]
    exact .inl (h.isDoing_advance ht hmove hp)
  | false =>
    have hmove : m.move t = .on (m.record (.executed P.inst i P.context))
        (t.doing (.driving o P (.inside i (step.execute P.context)) :: below)) := by
      simp [move_driving hp hframes, moveDriving, hstep, hcancelled]
    refine .inr ⟨?_, h.isDoing_advance ht hmove hp⟩
    simp [deeds, h.task?_of_mem ht, deedsOf, hp, hframes, deed?, hsize, hcancelled]

/-- A chain of a call keeps its runner alive. -/
theorem Sound.advance_locate (h : m.Sound .any) {k : Option CompletionId} {next : Bool → Behaviour}
    (hdoing : m.IsDoing n (.driving (.call r k) P (.inside i (.locate r next)) :: below)) :
    (m.act (.advance n)).IsDoing n (.driving (.call r k) P (.inside i (next true)) :: below) := by
  obtain ⟨t, ht, rfl, hp, hframes⟩ := hdoing
  have halive : m.isAlive r = true := by
    refine Bool.or_eq_true_iff.2 (.inr (List.any_eq_true.2 ⟨t, ht, ?_⟩))
    simp [hframes, Frame.runner?]
  have hmove : m.move t =
      .on m (t.doing (.driving (.call r k) P (.inside i (next true)) :: below)) := by
    simp [move_driving hp hframes, moveDriving, moveInside, halive]
  exact h.isDoing_advance ht hmove hp

theorem Sound.advance_launch (h : m.Sound .any) {context : Context} {q : Request}
    {next : Reply → Behaviour}
    (hdoing : m.IsDoing n (.driving o P (.inside i (.launch context r q next)) :: below)) :
    (m.act (.advance n)).IsDoing n
      (.opening r q false :: .driving o P (.calling i next) :: below) := by
  obtain ⟨t, ht, rfl, hp, hframes⟩ := hdoing
  have hmove : m.move t =
      .on m (t.doing (.opening r q false :: .driving o P (.calling i next) :: below)) := by
    simp [move_driving hp hframes, moveDriving, moveInside]
  exact h.isDoing_advance ht hmove hp

/-- A request starts a chain at the position that the store tells of the instance that it names, or
makes up. -/
theorem Sound.advance_opening (h : m.Sound .any) {q : Request} {resuming : Bool} {D : Definition}
    {x : String} {p : Option Nat} (hdoing : m.IsDoing n (.opening r q resuming :: below))
    (hr : m.runners.get? r = some R) (hD : R.registry.find? q.workflow = some D)
    (hx : (m.identify q).1 = x) (hseed : (seed r R D x q).result = .ok ())
    (hload : (m.load x).2 = .ok p) (hp : resuming = true → p.isSome = true) :
    m.deeds (.advance n) = [(m.opened r R D x q, .started (p.getD 0))] ∧
      (m.act (.advance n)).IsDoing n
        (.driving (.call r (m.opened r R D x q).completion) (m.opened r R D x q)
          (.entering (p.getD 0)) :: below) := by
  obtain ⟨t, ht, rfl, hparked, hframes⟩ := hdoing
  have hstore : (m.identify q).2.store = m.store := by rw [m.identify_eq q]
  have hnext : (m.identify q).2.next = m.next := by rw [m.identify_eq q]
  have hload' : ((m.identify q).2.load x).2 = .ok p := by rw [load, hstore]; exact hload
  obtain ⟨journal, hjournal⟩ :=
    foldl_record ((m.identify q).2.load x).1 (seed r R D x q).emissions
  have hmove : m.move t = .on
      { ((m.identify q).2.load x).1 with journal, next := (m.identify q).2.next + 1 } (t.doing
        (.driving (.call r (m.opened r R D x q).completion) (m.opened r R D x q)
          (.entering (p.getD 0)) :: below)) := by
    have hcompletion : (m.opened r R D x q).completion =
        if q.wait then some ⟨(m.identify q).2.next⟩ else none := by rw [hnext]; rfl
    rw [hcompletion]
    cases p with
    | none =>
      obtain rfl : resuming = false := by
        cases resuming with
        | false => rfl
        | true => cases hp rfl
      simp only [move_opening hparked hframes, moveOpening, hr, hD, hx, hload', hseed, hjournal,
        fresh]
      rw [opened, ← hnext]
      rfl
    | some p =>
      simp only [move_opening hparked hframes, moveOpening, hr, hD, hx, hload', hseed, hjournal,
        fresh]
      rw [opened, ← hnext]
      rfl
  refine ⟨?_, h.isDoing_advance ht hmove hparked⟩
  have hmove' : m.moveTop t = m.move t := (move_of_unparked hparked).symm
  simp [deeds, h.task?_of_mem ht, deedsOf, hparked, hframes, hmove', hmove, Move.started, Task.doing]

/-! ## The way down -/

namespace Spell

variable {D D' : Definition} {x x' : String} {s : Nested} {q : Request} {k : Option CompletionId}
  {b₀ b₁ b₂ : List Act}

/-- **A chain that is before a step executes it.** -/
theorem executes (h : e.Spell D x as bs) (hx : P.inst = x) {step : Step}
    (hstep : P.definition.step? i = some step)
    (hdoing : (e.after as).IsDoing n (.driving o P (.entering i) :: below)) :
    ∃ b₁ b₂, bs = b₁ ++ b₂ ∧ (e.after as).saga x b₁ = [(P, .executed i)] ∧
      (e.after (as ++ b₁)).IsDoing n
        (.driving o P (.inside i (step.execute P.context)) :: below) := by
  obtain ⟨b₁, b₂, rfl, hstays⟩ := h.exists_advance hx hdoing
  have hsilent := h.silent hx (.inl (Eq.refl (Phase.entering i))) fun b hb =>
    (hstays b hb).isAt List.mem_cons_self
  obtain hcancelled | ⟨hdeeds, hinside⟩ :=
    h.later.sound.advance_entering (hstays b₁ (List.prefix_refl _)) hstep
  · rw [List.append_cons] at h
    rw [← after_concat, List.append_assoc] at hcancelled
    exact absurd hcancelled (h.later.not_cancelled hx)
  · rw [← after_concat, List.append_assoc] at hinside
    refine ⟨b₁ ++ [.advance n], b₂, List.append_cons .., ?_, hinside⟩
    rw [saga_concat, hsilent, ← after_append, hdeeds]
    simp [Deed.about, hx]

/-- A move within a step is made, and meanwhile nothing is done for the instance. -/
theorem moves {b : Behaviour} {frames : List Frame} {stage : Stage} (h : e.Spell D x as bs)
    (hx : P.inst = x) (hdoing : (e.after as).IsDoing n (.driving o P (.inside i b) :: below))
    (hmove : ∀ m : Engine, m.Sound .any → m.IsDoing n (.driving o P (.inside i b) :: below) →
      (m.act (.advance n)).IsDoing n frames)
    (hframe : .driving o P stage ∈ frames) (hstage : stage.phase = .within i) :
    ∃ b₁ b₂, bs = b₁ ++ b₂ ∧ (e.after as).saga x b₁ = [] ∧
      (e.after (as ++ b₁)).IsDoing n frames := by
  obtain ⟨b₁, b₂, rfl, hstays⟩ := h.exists_advance hx hdoing
  have hnext := hmove _ h.later.sound (hstays b₁ (List.prefix_refl _))
  rw [← after_concat, List.append_assoc] at hnext
  rw [List.append_cons] at h
  refine ⟨b₁ ++ [.advance n], b₂, List.append_cons .., ?_, hnext⟩
  refine h.silent hx (.inr (Eq.refl (Phase.within i))) fun b hb => ?_
  obtain rfl | hb := List.prefix_concat_iff.1 hb
  · rw [← hstage]
    exact hnext.isAt hframe
  · exact (hstays b hb).isAt List.mem_cons_self

/-- **A nested step launches its request**, if it finds the runner of the chain. -/
theorem launches (h : e.Spell D x as bs) (hx : P.inst = x)
    (hrunner : P.context.services.get? .runner = some r) (hq : s.request P.context = .ok q)
    (hdoing : (e.after as).IsDoing n
      (.driving (.call r k) P (.inside i (s.start P.context)) :: below)) :
    ∃ b₁ b₂, bs = b₁ ++ b₂ ∧ (e.after as).saga x b₁ = [] ∧
      (e.after (as ++ b₁)).IsDoing n (.opening r q false ::
        .driving (.call r k) P (.calling i (s.conclude P.context)) :: below) := by
  obtain ⟨next, hstart, hnext⟩ := Nested.start_of_runner hrunner hq
  rw [hstart] at hdoing
  obtain ⟨b₁, b₂, rfl, hsilent, hlocated⟩ := h.moves hx hdoing
    (fun m hm hdoing => hm.advance_locate hdoing) List.mem_cons_self rfl
  rw [hnext] at hlocated
  obtain ⟨b₃, b₄, rfl, hsilent', hlaunched⟩ := h.later.moves hx hlocated
    (fun m hm hdoing => hm.advance_launch hdoing)
    (List.mem_cons_of_mem _ List.mem_cons_self) rfl
  rw [List.append_assoc] at hlaunched
  refine ⟨b₁ ++ b₃, b₄, (List.append_assoc ..).symm, ?_, hlaunched⟩
  rw [saga_append, hsilent, ← after_append, hsilent']
  rfl

/-- Nothing is done for an instance that is through until a run of it starts, and its position
stays. -/
theorem untouched {b : List Act} (h : e.Spell D x as (b ++ bs)) (hidle : (e.after as).IsThrough x)
    (hnone : ∀ d ∈ (e.after as).saga x b, d.2.isStart = false) :
    (e.after as).saga x b = [] ∧ (e.after (as ++ b)).position x = (e.after as).position x := by
  have hcourse := h.course
  rw [← List.append_assoc] at hcourse
  obtain ⟨st, -, hst⟩ := hcourse.left.left.shifts
  obtain rfl : st = none := by
    cases st with
    | none => rfl
    | some s =>
      obtain ⟨hmem, hinst⟩ := hst.mem_chains
      exact absurd hinst (hidle s.1 hmem)
  obtain ⟨st', hshifts, -⟩ := hcourse.left.shifts_from hst
  obtain ⟨hsilent, -, hposition⟩ := hshifts.of_none hnone
  exact ⟨hsilent, hposition⟩

/-- **A request for an instance that nobody else runs starts a chain at the position of the
instance**, if its context can be made up; to resume it, a position has to be on record. -/
theorem begins {resuming : Bool} (h : e.Spell D x as (b₀ ++ bs))
    (hsingle : ((e.after as).saga x (b₀ ++ bs)).countP (fun d => d.2.isStart) ≤ 1)
    (hidle : (e.after as).IsThrough x) (hr : (e.after as).runners.get? r = some R)
    (hD : R.registry.find? q.workflow = some D)
    (hx : ∀ b, b <+: bs → (e.after (as ++ b₀ ++ b)).IsDoing n (.opening r q resuming :: below) →
      ((e.after (as ++ b₀ ++ b)).identify q).1 = x) (hloyal : q.IsLoyal)
    (hseed : (seed r R D x q).result = .ok ())
    (hstored : ∀ b, b <+: b₀ ++ bs → ∃ p, ((e.after (as ++ b)).load x).2 = .ok p ∧
      (resuming = true → p.isSome = true))
    (hcut : .cut n ∉ bs)
    (hdoing : (e.after (as ++ b₀)).IsDoing n (.opening r q resuming :: below)) :
    ∃ b₁ b₂ c, bs = b₁ ++ .advance n :: b₂ ∧
      (∀ b, b <+: b₁ → (e.after (as ++ b₀ ++ b)).IsDoing n (.opening r q resuming :: below)) ∧
      (e.after as).saga x (b₀ ++ b₁ ++ [.advance n]) = [(c, .started ((e.after as).position x))] ∧
      (e.after (as ++ (b₀ ++ b₁ ++ [.advance n]))).IsDoing n
        (.driving (.call r c.completion) c (.entering ((e.after as).position x)) :: below) ∧
      c.definition = D ∧ c.context = (seed r R D x q).context ∧
        c.completion.isSome = q.wait := by
  have hrest := h.later.rest
  rw [after_append] at hrest
  obtain ⟨b₁, b₂, rfl, hstays⟩ := h.later.sound.exists_advance hdoing hrest fun b₁ b₂ hbs _ =>
    hcut (hbs ▸ List.mem_append_right _ List.mem_cons_self)
  have hstays' : ∀ b, b <+: b₁ →
      (e.after (as ++ b₀ ++ b)).IsDoing n (.opening r q resuming :: below) := by
    intro b hb
    rw [after_append]
    exact hstays b hb
  obtain ⟨p, hload, hsome⟩ := hstored (b₀ ++ b₁) (by simp)
  have hr' := h.course.new.runner_stays as (b₀ ++ b₁) hr
  rw [← List.append_assoc] at hload hr'
  obtain ⟨hdeeds, hstarted⟩ := h.later.later.sound.advance_opening (hstays' b₁ (List.prefix_refl _))
    hr' hD (hx b₁ (by simp) (hstays' b₁ (List.prefix_refl _))) hseed hload hsome
  generalize hc : (e.after (as ++ b₀ ++ b₁)).opened r R D x q = c at hdeeds hstarted
  have hcx : c.inst = x := by
    rw [← hc]
    exact inst_seed hloyal r R D x
  have hone : (e.after as).saga x (b₀ ++ b₁ ++ [.advance n]) =
      (e.after as).saga x (b₀ ++ b₁) ++ [(c, .started (p.getD 0))] := by
    rw [saga_concat, ← after_append, ← List.append_assoc, hdeeds]
    simp [Deed.about, hcx]
  -- No run of the instance has begun before, so that its position has not changed.
  have hnone : ∀ d ∈ (e.after as).saga x (b₀ ++ b₁), d.2.isStart = false := by
    have hsplit : b₀ ++ (b₁ ++ .advance n :: b₂) = b₀ ++ b₁ ++ [.advance n] ++ b₂ := by simp
    rw [hsplit, saga_append, hone, List.countP_append, List.countP_append] at hsingle
    have hstart : [(c, Deed.started (p.getD 0))].countP (fun d => d.2.isStart) = 1 := rfl
    have hzero : ((e.after as).saga x (b₀ ++ b₁)).countP (fun d => d.2.isStart) = 0 := by omega
    intro d hd
    exact Bool.eq_false_iff.2 (List.countP_eq_zero.1 hzero d hd)
  rw [← List.append_assoc b₀] at h
  obtain ⟨hsilent, hposition⟩ := h.untouched hidle hnone
  have hp : p.getD 0 = (e.after as).position x := by
    rw [← hposition, ← List.append_assoc, position_of_load hload]
  rw [hp] at hone hstarted
  refine ⟨b₁, b₂, c, rfl, hstays', ?_, ?_, ?_, ?_, ?_⟩
  · rw [hone, hsilent]
    rfl
  · rw [← after_concat] at hstarted
    simpa using hstarted
  · rw [← hc]
    rfl
  · rw [← hc]
    rfl
  · rw [← hc]
    cases hwait : q.wait <;> simp [opened, hwait]

/-- **A request without a function of its own starts a chain at the position of the instance**, if a
position is on record. -/
theorem opens {resuming : Bool} (h : e.Spell D x as (b₀ ++ bs))
    (hsingle : ((e.after as).saga x (b₀ ++ bs)).countP (fun d => d.2.isStart) ≤ 1)
    (hidle : (e.after as).IsThrough x) (hr : (e.after as).runners.get? r = some R)
    (hD : R.registry.find? q.workflow = some D) (hx : q.inst = some x) (hinit : q.init = none)
    (hstored : ∀ b, b <+: b₀ ++ bs → ∃ p, ((e.after (as ++ b)).load x).2 = .ok (some p))
    (hcut : .cut n ∉ bs)
    (hdoing : (e.after (as ++ b₀)).IsDoing n (.opening r q resuming :: below)) :
    ∃ b₁ b₂ c, bs = b₁ ++ .advance n :: b₂ ∧
      (∀ b, b <+: b₁ → (e.after (as ++ b₀ ++ b)).IsDoing n (.opening r q resuming :: below)) ∧
      (e.after as).saga x (b₀ ++ b₁ ++ [.advance n]) = [(c, .started ((e.after as).position x))] ∧
      (e.after (as ++ (b₀ ++ b₁ ++ [.advance n]))).IsDoing n
        (.driving (.call r c.completion) c (.entering ((e.after as).position x)) :: below) ∧
      c.definition = D ∧ c.context = (seed r R D x q).context ∧
        c.completion.isSome = q.wait :=
  h.begins hsingle hidle hr hD (fun _ _ _ => identify_of_inst hx _) (fun f hf => by rw [hinit] at hf; cases hf)
    (seed_result hinit r R D x)
    (fun b hb => (hstored b hb).imp' some fun _ hload => ⟨hload, fun _ => rfl⟩) hcut hdoing

/-- **From a nested step to the start of the nested run**: the step is executed, and launches a run
of the next instance, which starts at the position of that instance. -/
theorem descends (h : e.Spell D x as (b₀ ++ bs)) (h' : e.Spell D' x' as (b₀ ++ bs))
    (hsingle : ((e.after as).saga x' (b₀ ++ bs)).countP (fun d => d.2.isStart) ≤ 1)
    (hidle : (e.after as).IsThrough x') (hr : (e.after as).runners.get? r = some R)
    (hD : R.registry.find? q.workflow = some D') (hx' : q.inst = some x') (hinit : q.init = none)
    (hstored : ∀ b, b <+: b₀ ++ bs → ∃ p, ((e.after (as ++ b)).load x').2 = .ok (some p))
    (hcut : .cut n ∉ bs) (hx : P.inst = x) (hnests : P.definition.Nests i s)
    (hrunner : P.context.services.get? .runner = some r) (hq : s.request P.context = .ok q)
    (hdoing : (e.after (as ++ b₀)).IsDoing n (.driving (.call r k) P (.entering i) :: below)) :
    ∃ b₁ b₂ c, bs = b₁ ++ b₂ ∧ (e.after (as ++ b₀)).saga x b₁ = [(P, .executed i)] ∧
      (e.after as).saga x' (b₀ ++ b₁) = [(c, .started ((e.after as).position x'))] ∧
      (e.after (as ++ (b₀ ++ b₁))).IsDoing n
        (.driving (.call r c.completion) c (.entering ((e.after as).position x')) ::
          .driving (.call r k) P (.calling i (s.conclude P.context)) :: below) ∧
      c.definition = D' ∧ c.context = (seed r R D' x' q).context ∧
        c.completion.isSome = q.wait := by
  obtain ⟨step, hstep, hstart⟩ := hnests
  obtain ⟨b₁, b₂, rfl, hexecuted, hinside⟩ := h.later.executes hx hstep hdoing
  rw [hstart] at hinside
  obtain ⟨b₃, b₄, rfl, hsilent, hopening⟩ := h.later.later.launches hx hrunner hq hinside
  have hsplit : b₀ ++ (b₁ ++ (b₃ ++ b₄)) = (b₀ ++ b₁ ++ b₃) ++ b₄ := by simp
  rw [hsplit] at h' hsingle hstored
  have hsplit' : as ++ b₀ ++ b₁ ++ b₃ = as ++ (b₀ ++ b₁ ++ b₃) := by simp
  rw [hsplit'] at hopening
  have hcut' : .cut n ∉ b₄ := fun hmem =>
    hcut (List.mem_append_right _ (List.mem_append_right _ hmem))
  obtain ⟨b₅, b₆, c, rfl, hstays, hstarted, hentering, hfacts⟩ :=
    h'.opens hsingle hidle hr hD hx' hinit hstored hcut' hopening
  refine ⟨b₁ ++ b₃ ++ (b₅ ++ [.advance n]), b₆, c, by simp, ?_, ?_, ?_, hfacts⟩
  · -- While the nested run is opened, the step waits.
    have hlater := h.later.later.later
    rw [List.append_cons] at hlater
    have hwaits := hlater.silent hx (.inr (Eq.refl (Phase.within i))) fun b hb => ?_
    · rw [saga_append, saga_append, hexecuted, ← after_append, hsilent, ← after_append,
        ← List.append_assoc _ b₁, hwaits]
      rfl
    · obtain rfl | hb := List.prefix_concat_iff.1 hb
      · rw [hsplit', ← List.append_assoc _ b₅, List.append_assoc as, List.append_assoc as]
        exact hentering.isAt (List.mem_cons_of_mem _ List.mem_cons_self)
      · rw [hsplit']
        exact (hstays b hb).isAt (List.mem_cons_of_mem _ List.mem_cons_self)
  · simpa only [List.append_assoc] using hstarted
  · simpa only [List.append_assoc] using hentering

end Spell

end Engine

end DurableFlow
