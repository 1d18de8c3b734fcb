import DurableFlow.Proofs.Waiting.CallsThatWait

/-!
# Calls that wait, and those that do not

Nobody but the caller of a run can see whether it waits: as long as the runner is held from outside,
the same steps execute, and the same is saved, published and scheduled, in the run and in the chains
that go on after its delays. What the two callers are told accords (`Launch.Accords`).

The engine in which the caller does not wait is the other one hushed, after every act
(`Launch.Shadows`). What the callers are told when their chain leaves them is read off its deeds.

Main statement: `Engine.IsNew.waiting_unseen`. A runner that is held by nobody else is kept alive by
a call that waits (`DelayedNesting.lost`).
-/

namespace DurableFlow

/-! ## What callers are told -/

/-- What a caller is told who waits for a chain that comes to its end within the call, and what it
would be told otherwise, after these deeds of the chain. -/
inductive Ending.Corresponds (c : Chain) (T : List Deed) : Ending → Ending → Prop
  /-- The instance has completed, or waits. -/
  | result {result : RunResult} (h : result.status = .completed ∨ result.status = .waiting) :
      Corresponds c T (.returned (.ok result)) (.returned (.ok result))
  /-- A step has failed, and that was published. -/
  | failed {i : Nat} {cause : Cause} (hreturned : .returned i (.failure cause) ∈ T)
      (hpublished : .published (c.notice (.failed i cause)) ∈ T) :
      Corresponds c T (.returned (.error (.stepFailed cause)))
        (.returned (.ok (Plan.resultOf c.context .failed)))
  /-- A step has failed, and the bus has refused to publish that. -/
  | refused {i : Nat} {cause : Cause} (hreturned : .returned i (.failure cause) ∈ T)
      (hrefused : .refused (c.notice (.failed i cause)) ∈ T) :
      Corresponds c T (.returned (.error (.stepFailed cause)))
        (.returned (.error (.fault .busClosed)))
  /-- A fault has stopped the chain, and no step has failed. -/
  | fault {fault : Fault} (h : ∀ i cause, .returned i (.failure cause) ∉ T) :
      Corresponds c T (.returned (.error (.fault fault))) (.returned (.error (.fault fault)))
  | panicked {payload : Panic} : Corresponds c T (.panicked payload) (.panicked payload)

namespace Recalls

variable {D : Definition} {p₀ p : Nat} {T : List Deed} {c : Chain} {v : Settlement}
  {result : RunResult} {fault : Fault}

/-- A chain that stops tells its result, but a failure tells who waits why. -/
theorem corresponds_of_stop (h : Recalls D p₀ T c (.acting ⟨[], .stop result⟩) p)
    (hv : .settled v ∈ T) :
    Ending.Corresponds c T (.returned v) (.returned (.ok result)) := by
  obtain ⟨T₀, i, r, rfl, htrail, hround⟩ := h
  have hv : .settled v ∈ r := (List.mem_append.1 hv).resolve_left (htrail.unsettled v)
  cases hround with
  | acting hr hplan =>
    rw [List.append_nil] at hplan
    obtain ⟨message, rfl, rfl, rfl⟩ | ⟨cause, rfl, rfl, rfl⟩ := Plan.stop_cases hplan
    · obtain rfl : v = .ok (Plan.resultOf c.context .waiting) := by
        simpa [Effect.deed] using hv
      exact .result (.inr rfl)
    · obtain rfl : v = .error (.stepFailed cause) := by simpa [Effect.deed] using hv
      exact .failed (i := i) (by simp) (by simp [Effect.deed])
  | ending hi hplan =>
    rw [List.append_nil] at hplan
    cases hplan
    obtain rfl : v = .ok ⟨c.inst, .completed, c.context.output⟩ := by
      simpa [Effect.deed, Chain.inst] using hv
    exact .result (.inl rfl)

/-- A chain that is halted once it has settled has failed, and the bus has refused the news. -/
theorem corresponds_of_settled (h : Recalls D p₀ T c (.halting fault) p) (hv : .settled v ∈ T) :
    Ending.Corresponds c T (.returned v) (.returned (.error (.fault fault))) := by
  obtain ⟨T₀, i, r, rfl, htrail, hround⟩ := h
  have hv : .settled v ∈ r := (List.mem_append.1 hv).resolve_left (htrail.unsettled v)
  cases hround with
  | withdrawn => cases hv
  | aborted hi => simp at hv
  | misjumped hr hplan => simp at hv
  | unsaved hround =>
    obtain ⟨-, o, rfl, -⟩ := hround.saving
    simp at hv
  | refused hround =>
    cases hround with
    | acting hr hplan =>
      obtain ⟨duration, due, rfl, rfl, rfl, -⟩ | ⟨message, rfl, rfl, rfl, -⟩ |
        ⟨cause, s, rfl, rfl, rfl, -⟩ := Plan.publish_cases hplan
      · simp [Effect.deed] at hv
      · simp [Effect.deed] at hv
      · cases hplan
        obtain rfl : v = .error (.stepFailed cause) := by simpa [Effect.deed] using hv
        exact .refused (i := i) (by simp) (by simp)
    | ending hi hplan =>
      obtain ⟨rfl, rfl⟩ := Plan.publish_atEnd hplan
      simp at hv
  | unscheduled hround =>
    rcases List.mem_append.1 hv with hv | hv
    · exact absurd hv (hround.unsettled_of_suspend v)
    · simp at hv

/-- A chain that is halted before it has settled tells its fault. -/
theorem corresponds_of_halted (h : Recalls D p₀ T c (.halting fault) p)
    (hfinal : ∀ d ∈ T, d.isFinal = false) :
    Ending.Corresponds c T (.returned (.error (.fault fault)))
      (.returned (.error (.fault fault))) := by
  refine .fault fun i cause hreturned => ?_
  have hfailed := ((h.answers_halted hfinal).failed cause).2
    ⟨i, List.mem_append_left _ hreturned⟩
  cases hfailed

end Recalls

/-! ## Runs whose callers wait or do not -/

/-- A run that is started after a history. -/
structure Launch where
  before : List Act
  runner : RunnerId
  token : Token
  request : Request

namespace Launch

/-- The history in which the run is started by a caller who waits or does not, and others follow. -/
def course (l : Launch) (wait : Bool) (after : List Act) : List Act :=
  l.before ++ .run l.runner l.token { l.request with wait } :: after

/-- What becomes of an engine in the course of that. -/
def engine (l : Launch) (e : Engine) (wait : Bool) (after : List Act) : Engine :=
  e.after (l.course wait after)

/-- The number of the task of the run. -/
def number (l : Launch) (e : Engine) : Nat := (e.after l.before).next

/-- The chain of the run, within the call that waits, is at that stage. -/
def IsAt (l : Launch) (e : Engine) (after : List Act) (k : CompletionId) (c : Chain)
    (stage : Stage) : Prop :=
  ∃ t ∈ (l.engine e true after).tasks, t.number = l.number e ∧
    t.frames = [.driving (.call l.runner (some k)) c stage]

/-- The call of the run ends so when its task is taken on then. -/
def Ends (l : Launch) (e : Engine) (wait : Bool) (after : List Act) (x : Ending) : Prop :=
  (l.engine e wait (after ++ [.advance (l.number e)])).endings =
    (l.engine e wait after).endings ++ [(l.number e, x)]

/-- The chain of the run has settled, and the call that waits has been told, or is about to be
unless it was cut off. -/
def Tells (l : Launch) (e : Engine) (after : List Act) (k : CompletionId) (s : Settlement) : Prop :=
  .settled s ∈ e.tale k (l.course true after) ∧
    ((l.number e, .returned s) ∈ (l.engine e true after).endings ∨
    (∃ t ∈ (l.engine e true after).tasks, t.number = l.number e ∧
      t.frames = [.receiving l.runner k] ∧ (l.engine e true after).IsTelling t k s) ∨
    .cut (l.number e) ∈ after)

/-- How far a run has come whose caller waits, and how far it has come if its caller does not. -/
inductive Accords (l : Launch) (e : Engine) (after : List Act) : Prop
  /-- Both calls are on their way. -/
  | underway
      (hwaits : ∃ t ∈ (l.engine e true after).tasks, t.number = l.number e ∧
        ∀ r k, t.frames ≠ [.receiving r k])
      (hruns : ∃ t ∈ (l.engine e false after).tasks, t.number = l.number e)
  /-- Both calls have been cut off on their way. -/
  | cut (hcut : .cut (l.number e) ∈ after)
      (hwaits : ∀ t ∈ (l.engine e true after).tasks, t.number ≠ l.number e)
      (hruns : ∀ t ∈ (l.engine e false after).tasks, t.number ≠ l.number e)
  /-- No chain has been started, for the same reason. -/
  | declined {pre post : List Act} {x : Ending}
      (hafter : after = pre ++ .advance (l.number e) :: post)
      (hwaits : l.Ends e true pre x) (hruns : l.Ends e false pre x)
  /-- The chain has been laid to rest within the call. -/
  | rested {pre post : List Act} {k : CompletionId} {c : Chain} {next : Nat} {due : Instant}
      (hafter : after = pre ++ .advance (l.number e) :: post)
      (hat : l.IsAt e pre k c (.acting ⟨[], .suspend next due⟩))
      (hrests : (c, .suspended next) ∈ (l.engine e true pre).deeds (.advance (l.number e)))
      (hruns : l.Ends e false pre (.returned (.ok (Plan.resultOf c.context .delayed))))
  /-- The chain has come to its end within the call. -/
  | ended {pre post : List Act} {k : CompletionId} {c : Chain} {stage : Stage}
      {L : List (Chain × Deed)} {p₀ p : Nat} {x x' : Ending}
      (hafter : after = pre ++ .advance (l.number e) :: post)
      (hat : l.IsAt e pre k c stage)
      (hL : L.Sublist (e.chronicle (l.course true pre))) (hsame : ∀ d ∈ L, d.1.GoesOnAs c)
      (hrecalls : Recalls c.definition p₀ (L.map Prod.snd) c stage.phase p)
      (hcorresponds : x.Corresponds c (L.map Prod.snd) x')
      (hwaits : l.Ends e true pre x ∨ ∃ s, x = .returned s ∧ l.Tells e after k s)
      (hruns : l.Ends e false pre x')

/-- The task of a call that waits: it is about to open its request, or the completion that it waits
for has been made. -/
def IsCall (l : Launch) (t : Task) : Option CompletionId → Prop
  | none => t.parked = false ∧
      t.frames = [.opening l.runner { l.request with wait := true } false]
  | some j => t.posts.getLast? = some ⟨some j, some l.runner⟩

/-- The engine in which the caller does not wait is the other one hushed, and the calls accord. -/
structure Shadows (l : Launch) (e : Engine) (after : List Act) (k : Option CompletionId) :
    Prop where
  hushes : (l.engine e true after).Hushes (l.number e) k (l.engine e false after)
  rooted : (l.engine e true after).IsRooted (l.number e) l.runner k
  call : ∀ t ∈ (l.engine e true after).tasks, t.number = l.number e → l.IsCall t k
  accords : l.Accords e after

variable {l : Launch} {e : Engine} {after : List Act} {k : CompletionId} {a : Act} {wait : Bool}

theorem course_concat (l : Launch) (wait : Bool) (after : List Act) (a : Act) :
    l.course wait (after ++ [a]) = l.course wait after ++ [a] := by
  simp [course]

theorem engine_concat (l : Launch) (e : Engine) (wait : Bool) (after : List Act) (a : Act) :
    l.engine e wait (after ++ [a]) = (l.engine e wait after).act a := by
  rw [engine, course_concat, Engine.after_concat]
  rfl

section

variable (h : e.IsNew)
include h

theorem sound (l : Launch) (wait : Bool) (after : List Act) : (l.engine e wait after).Sound .any :=
  (h.sound .any).after_any _

/-- What a call is told remains. -/
theorem Tells.concat {s : Settlement} (htells : l.Tells e after k s) (a : Act) :
    l.Tells e (after ++ [a]) k s := by
  obtain ⟨hs, htold⟩ := htells
  have hsound := sound h l true after
  have hsettled : .settled s ∈ e.tale k (l.course true (after ++ [a])) := by
    rw [course_concat, Engine.tale_concat]
    exact List.mem_append_left _ hs
  refine ⟨hsettled, ?_⟩
  rw [engine_concat]
  obtain hended | ⟨t, ht, hn, hframes, -⟩ | hcut := htold
  · exact .inl ((hsound.retains a).endings.subset hended)
  · -- As long as the call waits, it is about to be told.
    have waits : ∀ {u : Task}, u ∈ ((l.engine e true after).act a).tasks → u.number = l.number e →
        u.frames = [.receiving l.runner k] → ∃ u ∈ ((l.engine e true after).act a).tasks,
          u.number = l.number e ∧ u.frames = [.receiving l.runner k] ∧
            ((l.engine e true after).act a).IsTelling u k s := by
      intro u hu hnumber hframes
      refine ⟨u, hu, hnumber, hframes, ?_⟩
      rw [← engine_concat] at hu ⊢
      exact h.isTelling_of_settled hsettled hu hframes
    by_cases hcut : a = .cut t.number
    · rw [hcut, hn]
      exact .inr (.inr (by simp))
    by_cases hadvance : a = .advance t.number
    case neg => exact .inr (.inl (waits (hsound.mem_tasks_act ht hadvance hcut) hn hframes))
    subst hadvance
    have htold : (l.engine e true after).settled.get? k = some s := h.settled_of_mem_tale hs
    have habandon : Engine.abandon t = none := by simp [Engine.abandon, hframes]
    cases hp : t.parked with
    | true =>
      have hmove : (l.engine e true after).move t =
          .on (l.engine e true after) { t with parked := false } := by
        simp [Engine.move, hp, habandon, Engine.isReady, hframes, Table.contains, htold]
      obtain ⟨hnumber, hmem⟩ := hsound.mem_tasks_advance ht hmove
      exact .inr (.inl (waits hmem (hnumber.trans hn) hframes))
    | false =>
      have hmove : (l.engine e true after).move t =
          .over (l.engine e true after) (.returned s) := by
        simp [Engine.move_of_unparked hp, Engine.moveTop, hframes, htold, Engine.answer]
      rw [hsound.endings_over ht hmove, hn]
      exact .inl (by simp)
  · exact .inr (.inr (List.mem_append_left _ hcut))

/-- Once one of the calls is over, nothing becomes of how they accord. -/
theorem Accords.later (haccords : l.Accords e after)
    (hunderway : ∀ t ∈ (l.engine e true after).tasks, t.number = l.number e →
      ∀ u ∈ (l.engine e false after).tasks, u.number = l.number e →
      (∀ r k, t.frames ≠ [.receiving r k]) → l.Accords e (after ++ [a]))
    (hwaits : ∀ u ∈ (l.engine e true (after ++ [a])).tasks, u.number = l.number e →
      ∃ t ∈ (l.engine e true after).tasks, t.number = l.number e)
    (hruns : ∀ u ∈ (l.engine e false (after ++ [a])).tasks, u.number = l.number e →
      ∃ t ∈ (l.engine e false after).tasks, t.number = l.number e) :
    l.Accords e (after ++ [a]) := by
  have hlater : ∀ {pre post : List Act}, after = pre ++ .advance (l.number e) :: post →
      after ++ [a] = pre ++ .advance (l.number e) :: (post ++ [a]) := by
    rintro pre post rfl
    simp
  cases haccords with
  | underway hw hf =>
    obtain ⟨t, ht, hn, hframes⟩ := hw
    obtain ⟨u, hu, hn'⟩ := hf
    exact hunderway t ht hn u hu hn' hframes
  | cut hcut hw hf =>
    refine .cut (List.mem_append_left _ hcut) (fun u hu hn => ?_) fun u hu hn => ?_
    · obtain ⟨t, ht, hnumber⟩ := hwaits u hu hn
      exact hw t ht hnumber
    · obtain ⟨t, ht, hnumber⟩ := hruns u hu hn
      exact hf t ht hnumber
  | declined hafter hw hf => exact .declined (hlater hafter) hw hf
  | rested hafter hat hrests hruns => exact .rested (hlater hafter) hat hrests hruns
  | ended hafter hat hL hsame hrecalls hcorresponds hw hf =>
    refine .ended (hlater hafter) hat hL hsame hrecalls hcorresponds ?_ hf
    obtain hends | ⟨s, rfl, htells⟩ := hw
    · exact .inl hends
    · exact .inr ⟨s, rfl, htells.concat h a⟩

/-- **A call that waits and one that does not accord when they part.** -/
theorem accords_of_callTurns {j : CompletionId} {t : Task}
    (ht : t ∈ (l.engine e true after).tasks) (hn : t.number = l.number e)
    (hturns : Engine.CallTurns (l.number e) l.runner j t (l.engine e true after)
      (l.engine e false after)) :
    l.Accords e (after ++ [.advance (l.number e)]) := by
  have hsplit : after ++ [.advance (l.number e)] = after ++ .advance (l.number e) :: [] := rfl
  have hends : ∀ {wait : Bool} {x : Ending},
      ((l.engine e wait after).act (.advance (l.number e))).endings =
        (l.engine e wait after).endings ++ [(l.number e, x)] → l.Ends e wait after x := by
    intro wait x hact
    rw [Ends, engine_concat, hact]
  -- What the chain has settled is what has been settled for the call.
  have hsettles : ∀ {c : Chain} {L : List (Chain × Deed)} {v : Settlement},
      L.Sublist (e.chronicle (l.course true after)) → (c, .settled v) ∈ L → c.completion = some j →
      .settled v ∈ e.tale j (l.course true after) := fun hL hv hc =>
    Deed.mem_of.2 ⟨_, hL.subset hv, beq_iff_eq.2 hc⟩
  cases hturns with
  | @stays u hu hnumber hlast haw hf =>
    refine .underway ⟨u, ?_, hnumber, fun r k hframes => ?_⟩ ?_
    · rw [engine_concat]
      exact hu
    · rw [Task.posts, hframes] at hlast
      cases hlast
      simp [Task.awaits, hframes] at haw
    · rw [engine_concat]
      exact hf
  | panics hframes hover hw hf =>
    obtain ⟨L, hL, hsame, ⟨p₀, p, hrecalls⟩, -⟩ := h.remembers_top ht hframes
    exact .ended hsplit ⟨t, ht, hn, hframes⟩ hL hsame hrecalls .panicked (.inl (hends hw))
      (hends hf)
  | @halts c fault hframes hover hw hf =>
    obtain ⟨L, hL, hsame, ⟨p₀, p, hrecalls⟩, hreceiver⟩ := h.remembers_top ht hframes
    have hat : l.IsAt e after j c (.halting fault) := ⟨t, ht, hn, hframes⟩
    obtain ⟨howner, hfinal⟩ | ⟨c₀, v, hv, hc₀⟩ := hreceiver j rfl
    · have hstrand := Engine.strand_mem_account ht (Engine.driving_mem_strands hframes)
      have hnone : (l.engine e true after).settled.get? j = none :=
        (h.owes_of_mem hstrand howner).2.settled
      rw [hnone] at hw
      refine .ended hsplit hat hL hsame hrecalls (hrecalls.corresponds_of_halted fun d hd => ?_)
        (.inl (hends hw)) (hends hf)
      obtain ⟨x, hx, rfl⟩ := List.mem_map.1 hd
      exact hfinal x hx
    · have hsome : (l.engine e true after).settled.get? j = some v :=
        h.settled_of_mem_tale (hsettles hL hv hc₀)
      rw [hsome] at hw
      exact .ended hsplit hat hL hsame hrecalls
        (hrecalls.corresponds_of_settled (List.mem_map_of_mem hv)) (.inl (hends hw)) (hends hf)
  | @stops c result hframes hw hf =>
    obtain ⟨L, hL, hsame, ⟨p₀, p, hrecalls⟩, hreceiver⟩ := h.remembers_top ht hframes
    have hat : l.IsAt e after j c (.acting ⟨[], .stop result⟩) := ⟨t, ht, hn, hframes⟩
    obtain ⟨-, hfinal⟩ | ⟨c₀, v, hv, hc₀⟩ := hreceiver j rfl
    · -- A chain that stops has settled.
      obtain ⟨T₀, i, ds, hds, -, hround⟩ := hrecalls
      obtain ⟨v, hv⟩ := hround.settled_of_stop
      obtain ⟨x, hx, hsettled⟩ := List.mem_map.1 (hds ▸ List.mem_append_right T₀ hv)
      have hfinal := hfinal x hx
      rw [hsettled] at hfinal
      cases hfinal
    · have hsettled : .settled v ∈ e.tale j (l.course true (after ++ [.advance (l.number e)])) := by
        rw [course_concat, Engine.tale_concat]
        exact List.mem_append_left _ (hsettles hL hv hc₀)
      refine .ended hsplit hat hL hsame hrecalls
        (hrecalls.corresponds_of_stop (List.mem_map_of_mem hv)) (.inr ⟨v, rfl, hsettled, ?_⟩)
        (hends hf)
      rw [← engine_concat] at hw
      exact .inr (.inl ⟨_, hw, hn, rfl, h.isTelling_of_settled hsettled hw rfl⟩)
  | rests hframes hd hw hf => exact .rested hsplit ⟨t, ht, hn, hframes⟩ hd (hends hf)

/-- Another act, unless it releases the runner, leaves the calls in accord. -/
theorem Shadows.aside {κ : Option CompletionId} (hs : l.Shadows e after κ)
    (ha : a ≠ .releaseRunner l.runner)
    (hadvance : a = .advance (l.number e) →
      ∀ t ∈ (l.engine e true after).tasks, t.number ≠ l.number e) :
    l.Shadows e (after ++ [a]) κ := by
  have hW := sound h l true after
  have hF := sound h l false after
  have hlt := hs.rooted.number_lt
  have hlt' : l.number e < (l.engine e false after).next := hs.hushes.next ▸ hlt
  have hold : ∀ u ∈ (l.engine e true (after ++ [a])).tasks, u.number = l.number e →
      u ∈ (l.engine e true after).tasks := by
    intro u hu hn
    rw [engine_concat] at hu
    obtain hu | ⟨t, ht, hnumber, hact⟩ := hW.mem_tasks_of_act hu (hn ▸ hlt)
    · exact hu
    · exact absurd (hnumber.trans hn) (hadvance (hn ▸ hact) t ht)
  refine ⟨?_, ?_, fun t ht hn => hs.call t (hold t ht hn) hn, ?_⟩
  · rw [engine_concat, engine_concat]
    refine hs.hushes.act hs.rooted hW hF a fun _ hact => ?_
    exact List.find?_eq_none.2 fun t ht => by simpa using hadvance hact t ht
  · rw [engine_concat]
    exact hs.rooted.act hW ha
  · refine hs.accords.later h ?_ (fun u hu hn => ⟨u, hold u hu hn, hn⟩) ?_
    · intro t ht hn u hu hn' hframes
      by_cases hcut : a = .cut (l.number e)
      · subst hcut
        refine .cut (by simp) ?_ ?_ <;>
        · intro x hx
          rw [engine_concat] at hx
          exact bne_iff_ne.1 (List.mem_filter.1 hx).2
      · have hother : a ≠ .advance (l.number e) := fun hact => hadvance hact t ht hn
        refine .underway ⟨t, ?_, hn, hframes⟩ ⟨u, ?_, hn'⟩
        · rw [engine_concat]
          exact hW.mem_tasks_act ht (hn ▸ hother) (hn ▸ hcut)
        · rw [engine_concat]
          exact hF.mem_tasks_act hu (hn' ▸ hother) (hn' ▸ hcut)
    · intro u hu hn
      rw [engine_concat] at hu
      obtain hu | ⟨t, ht, hnumber, -⟩ := hF.mem_tasks_of_act hu (hn ▸ hlt')
      · exact ⟨u, hu, hn⟩
      · exact ⟨t, ht, hnumber.trans hn⟩

/-- The calls are in accord when their requests are opened. -/
theorem Shadows.opening (hs : l.Shadows e after none) {t : Task}
    (ht : t ∈ (l.engine e true after).tasks) (hn : t.number = l.number e) :
    ∃ k, l.Shadows e (after ++ [.advance (l.number e)]) k := by
  obtain ⟨hp, hframes⟩ := hs.call t ht hn
  have hsplit : after ++ [.advance (l.number e)] = after ++ .advance (l.number e) :: [] := rfl
  have hnew := (sound h l true (after ++ [.advance (l.number e)])).numbers
  have hopens := hs.hushes.callOpens hs.rooted (sound h l true after) (sound h l false after) ht hn
    hp hframes (h.isUnmade _)
  cases hopens with
  | @declines x hushes hw hf hover =>
    refine ⟨none, ?_, ?_, fun u hu hnumber => ?_, .declined (x := x) hsplit ?_ ?_⟩
    · rw [engine_concat, engine_concat]
      exact hushes
    · rw [engine_concat]
      exact hs.rooted.act (sound h l true after) (by simp)
    · rw [engine_concat] at hu
      exact absurd hnumber (hover u hu)
    · rw [Ends, engine_concat, hw]
    · rw [Ends, engine_concat, hf]
  | @starts u c i hushes hr hu hnumber hframes' hf =>
    rw [← engine_concat] at hu
    refine ⟨some ⟨(l.engine e true after).next⟩, ?_, ?_, fun x hx hx' => ?_, .underway
      ⟨u, hu, hnumber, fun r k heq => ?_⟩ ?_⟩
    · rw [engine_concat, engine_concat]
      exact hushes
    · rw [engine_concat]
      exact hr
    · obtain rfl := List.inj_on_of_nodup_map hnew hx hu (hx'.trans hnumber.symm)
      show (x.frames.map Frame.post).getLast? = _
      rw [hframes']
      rfl
    · cases hframes'.symm.trans heq
    · rw [engine_concat]
      exact hf

/-- A call stays the outermost one of its task when it is taken on, and the calls accord. -/
theorem Shadows.turns {j : CompletionId} (hs : l.Shadows e after (some j)) {t : Task}
    (ht : t ∈ (l.engine e true after).tasks) (hn : t.number = l.number e) :
    (∀ u ∈ (l.engine e true (after ++ [.advance (l.number e)])).tasks, u.number = l.number e →
      l.IsCall u (some j)) ∧
    ((∀ r k, t.frames ≠ [.receiving r k]) → l.Accords e (after ++ [.advance (l.number e)])) := by
  have hW := sound h l true after
  have hlast : t.posts.getLast? = some ⟨some j, some l.runner⟩ := hs.call t ht hn
  have hnew := (sound h l true (after ++ [.advance (l.number e)])).numbers
  rw [engine_concat] at hnew ⊢
  -- There is one task of the run.
  have hcall : ∀ {u : Task}, u ∈ ((l.engine e true after).act (.advance (l.number e))).tasks →
      u.number = l.number e → u.posts.getLast? = some ⟨some j, some l.runner⟩ →
      ∀ x ∈ ((l.engine e true after).act (.advance (l.number e))).tasks, x.number = l.number e →
        l.IsCall x (some j) := by
    intro u hu hnumber hposts x hx hx'
    obtain rfl := List.inj_on_of_nodup_map hnew hx hu (hx'.trans hnumber.symm)
    exact hposts
  cases haw : t.awaits (some j) with
  | false =>
    have hturns := hs.hushes.callTurns hs.rooted hW (sound h l false after) ht hn
      (h.isWaiting _ ht) hlast haw
    refine ⟨?_, fun _ => accords_of_callTurns h ht hn hturns⟩
    cases hturns with
    | stays hu hnumber hposts => exact hcall hu hnumber hposts
    | panics hframes hover => exact fun x hx hx' => absurd hx' (hover x hx)
    | halts hframes hover => exact fun x hx hx' => absurd hx' (hover x hx)
    | stops hframes hw => exact hcall hw hn rfl
    | rests hframes hd hw => exact hcall hw hn rfl
  | true =>
    obtain ⟨_, hj, hframes, -⟩ := (hs.rooted.tasks t ht).of_awaits haw
    cases hj
    refine ⟨?_, fun hnot => absurd hframes (hnot _ _)⟩
    rw [← hn] at hcall ⊢
    obtain ⟨-, hact⟩ | ⟨m, u, _, _, hmove, -⟩ | ⟨m, x, _, _, -, -, -, hact⟩ := hW.advance_cases ht
    · exact hcall (by rwa [hact]) rfl hlast
    · obtain ⟨hnumber, hmem⟩ := hW.mem_tasks_advance ht hmove
      obtain hblocked | ⟨parked, hon⟩ | ⟨s, hover⟩ :=
        Engine.move_of_awaits (e := l.engine e true after) hframes
      · cases hmove.symm.trans hblocked
      · cases hmove.symm.trans hon
        exact hcall hmem hnumber hlast
      · cases hmove.symm.trans hover
    · intro x hx hx'
      rw [hact] at hx
      exact absurd hx' (bne_iff_ne.1 (List.mem_filter.1 hx).2)

/-- **Whatever happens, the calls stay in accord**, unless the runner is released. -/
theorem Shadows.concat {κ : Option CompletionId} (hs : l.Shadows e after κ)
    (ha : a ≠ .releaseRunner l.runner) :
    ∃ κ, l.Shadows e (after ++ [a]) κ := by
  by_cases hadvance : a = .advance (l.number e) ∧
      ∃ t ∈ (l.engine e true after).tasks, t.number = l.number e
  case neg => exact ⟨κ, hs.aside h ha fun hact t ht hn => hadvance ⟨hact, t, ht, hn⟩⟩
  obtain ⟨rfl, t, ht, hn⟩ := hadvance
  cases κ with
  | none => exact hs.opening h ht hn
  | some j =>
    have hW := sound h l true after
    have hF := sound h l false after
    have hlt := hs.rooted.number_lt
    obtain ⟨hcall, haccords⟩ := hs.turns h ht hn
    refine ⟨some j, ?_, ?_, hcall, hs.accords.later h ?_ (fun _ _ _ => ⟨t, ht, hn⟩) ?_⟩
    · rw [engine_concat, engine_concat]
      exact hs.hushes.act hs.rooted hW hF _ nofun
    · rw [engine_concat]
      exact hs.rooted.act hW ha
    · intro u hu hn' _ _ _ hframes
      obtain rfl := List.inj_on_of_nodup_map hW.numbers hu ht (hn'.trans hn.symm)
      exact haccords hframes
    · intro u hu hn'
      rw [engine_concat] at hu
      obtain hu | ⟨t, ht, hnumber, -⟩ :=
        hF.mem_tasks_of_act hu (hn' ▸ hs.hushes.next ▸ hlt)
      · exact ⟨u, hu, hn'⟩
      · exact ⟨t, ht, hnumber.trans hn'⟩

/-- The calls are in accord when the run starts. -/
theorem Shadows.start (hr : l.runner ∈ (e.after l.before).held) : l.Shadows e [] none := by
  have hsound : (e.after l.before).Sound .any := (h.sound .any).after_any _
  have hengine : ∀ wait, l.engine e wait [] =
      (e.after l.before).act (.run l.runner l.token { l.request with wait }) := by
    intro wait
    rw [engine, course, Engine.after_concat]
  have hlt : ∀ t ∈ (e.after l.before).tasks, t.number ≠ l.number e := fun t ht =>
    (hsound.lt_next t ht).ne
  refine ⟨?_, ⟨fun t ht => ⟨nofun, nofun⟩, ?_, nofun, ?_⟩, fun t ht hn => ?_, .underway ?_ ?_⟩
  · rw [hengine, hengine]
    exact hsound.hushes_run l.runner l.token l.request
  · rw [hengine]
    exact hr
  · rw [hengine]
    exact Nat.lt_succ_self _
  · rw [hengine] at ht
    rcases List.mem_append.1 ht with ht | ht
    · exact absurd hn (hlt t ht)
    · rw [List.mem_singleton.1 ht]
      exact ⟨rfl, rfl⟩
  · rw [hengine]
    exact ⟨_, List.mem_append_right _ (List.mem_singleton_self _), rfl, nofun⟩
  · rw [hengine]
    exact ⟨_, List.mem_append_right _ (List.mem_singleton_self _), rfl⟩

end

end Launch

namespace Engine

variable {e : Engine}

/-- **Whether the caller of a run waits, changes only what the caller is told**, as long as the
runner is held from outside. -/
theorem IsNew.waiting_unseen (h : e.IsNew) {l : Launch} {after : List Act}
    (hheld : l.runner ∈ (e.after l.before).held) (hkept : .releaseRunner l.runner ∉ after) :
    (l.engine e false after).journal = (l.engine e true after).journal ∧
    (l.engine e false after).store = (l.engine e true after).store ∧
    (l.engine e false after).pending = (l.engine e true after).pending ∧
    (l.engine e false after).endings.filter (fun x => x.1 != l.number e) =
      (l.engine e true after).endings.filter (fun x => x.1 != l.number e) ∧
    l.Accords e after := by
  obtain ⟨k, hs⟩ : ∃ k, l.Shadows e after k := by
    induction after using List.reverseRecOn with
    | nil => exact ⟨none, .start h hheld⟩
    | append_singleton after a ih =>
      obtain ⟨k, hs⟩ := ih fun hmem => hkept (List.mem_append_left _ hmem)
      exact hs.concat h fun ha => hkept (by simp [ha])
  exact ⟨hs.hushes.journal, hs.hushes.store, hs.hushes.pending, hs.hushes.endings, hs.accords⟩

end Engine

/-! ## A message that needs a messenger -/

namespace DelayedNesting

/-- A workflow that waits for a while and then starts an instance of another one. -/
def registry : Registry :=
  ⟨(Table.empty.put "messenger" ⟨"messenger", [.delay .moment,
      Nested.step { workflow := "message", inst := some fun _ => .ok "y" }]⟩).put "message"
    ⟨"message", [.log "read"]⟩⟩

def launch : Launch where
  before := [.addRunner registry .empty]
  runner := ⟨0⟩
  token := .root 0
  request := { workflow := "messenger", inst := some "x" }

/-- The instance rests. -/
def rests : List Act := .replicate 8 (.advance 2)

/-- The delay passes, and the message is read. -/
def goesOn : List Act := .wake 0 :: .replicate 20 (.advance 5)

/-- The message is read, whether the caller waits or not. -/
theorem delivered :
    launch.runner ∈ (Greeting.engine.after launch.before).held ∧
      .releaseRunner launch.runner ∉ rests ++ goesOn ∧
      (launch.engine Greeting.engine true (rests ++ goesOn)).position "y" = 1 ∧
      (launch.engine Greeting.engine false (rests ++ goesOn)).journal =
        (launch.engine Greeting.engine true (rests ++ goesOn)).journal ∧
      launch.Accords Greeting.engine (rests ++ goesOn) := by
  have hnew : Greeting.engine.IsNew := ⟨rfl, rfl, rfl, rfl⟩
  have hheld : launch.runner ∈ (Greeting.engine.after launch.before).held := by decide +kernel
  have hkept : .releaseRunner launch.runner ∉ rests ++ goesOn := by simp [rests, goesOn]
  obtain ⟨hjournal, -, -, -, haccords⟩ := hnew.waiting_unseen hheld hkept
  exact ⟨hheld, hkept, by decide +kernel, hjournal, haccords⟩

/-- The runner is released while the instance rests. -/
def deserted : List Act := rests ++ .releaseRunner ⟨0⟩ :: goesOn

/-- **A runner that nobody else holds is kept alive by a call that waits.** It is released while the
instance rests; the message is read only if the caller waits. -/
theorem lost :
    Greeting.engine.IsNew ∧ launch.runner ∈ (Greeting.engine.after launch.before).held ∧
      (launch.engine Greeting.engine true deserted).position "y" = 1 ∧
      (launch.engine Greeting.engine false deserted).position "y" = 0 ∧
      (launch.engine Greeting.engine false deserted).journal ≠
        (launch.engine Greeting.engine true deserted).journal := by
  refine ⟨⟨rfl, rfl, rfl, rfl⟩, by decide +kernel, by decide +kernel, by decide +kernel, ?_⟩
  refine fun hsame => absurd (congrArg List.length hsame) ?_
  decide +kernel

end DelayedNesting

end DurableFlow
