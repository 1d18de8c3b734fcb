import DurableFlow.Proofs.Histories.Turns

/-!
# What a move leaves on its engine

Besides what becomes of its task, a move changes its engine in one way at most: something is written,
a token is cancelled, a position saved, a chain laid to rest. Which of these it is depends on what is
innermost in the task (`Engine.Imprints`, `Engine.imprints_move`). What no move changes, such as what
is stored or what is armed, is read off from there.
-/

namespace DurableFlow

/-- The engine after a move. -/
def Move.engine (e : Engine) : Move → Engine
  | .blocked => e
  | .on e _ | .over e _ => e

namespace Engine

/-- What becomes of an engine by a move of one of its tasks. -/
inductive Imprints (e : Engine) (t : Task) : Engine → Prop
  | nothing : Imprints e t e
  | writes (x : Occurrence) : Imprints e t (e.record x)
  | cancels : Imprints e t (e.cancel t.token)
  | publishes (notice : Notice) : Imprints e t (e.publish notice).1
  | settles {o : Origin} {c : Chain} {stage : Stage} {below : List Frame}
      (ht : t.frames = .driving o c stage :: below) (s : Settlement) :
      Imprints e t (e.settle c.completion s)
  | saves {o : Origin} {c : Chain} {next : Nat} {es : List Effect} {turn : Turn} {below : List Frame}
      (hp : t.parked = false) (ht : t.frames = .driving o c (.acting ⟨.save next :: es, turn⟩) :: below) :
      Imprints e t (e.save c.inst next).1
  | rests {o : Origin} {c : Chain} {next : Nat} {due : Instant} {below : List Frame}
      (hp : t.parked = false) (ht : t.frames = .driving o c (.acting ⟨[], .suspend next due⟩) :: below) :
      Imprints e t (e.suspend c t.token next due).1
  | consults (q : Request) (journal : List Occurrence) : Imprints e t (e.consulted q journal)
  | starts (q : Request) (journal : List Occurrence) :
      Imprints e t { e.consulted q journal with next := e.next + 1 }

variable {e : Engine} {t : Task} {below : List Frame} {o : Origin} {c : Chain}

/-- A task that is taken on leaves what its move does; besides, only the tasks change and the list of
those that are over. -/
theorem act_advance_eq {n : Nat} (ht : e.task? n = some t) : ∃ tasks endings,
    e.act (.advance n) = { (e.move t).engine e with tasks, endings } := by
  cases hmove : e.move t with
  | blocked => exact ⟨_, _, act_advance_blocked ht hmove⟩
  | on m u => exact ⟨_, _, act_advance_on ht hmove⟩
  | «over» m ending => exact ⟨_, _, act_advance_over ht hmove⟩

theorem engine_answer (e₀ e : Engine) (t : Task) (below : List Frame) (reply : Reply) :
    (e.answer t below reply).engine e₀ = e := by
  obtain ⟨frames, hon⟩ | ⟨ending, hover⟩ := answer_cases t below reply
  · rw [hon]
    rfl
  · rw [hover]
    rfl

theorem engine_finish (e₀ e : Engine) (t : Task) (below : List Frame) (o : Origin)
    (result : RunResult) : (e.finish t below o result).engine e₀ = e := by
  obtain ⟨frames, hon⟩ | ⟨ending, hover⟩ := finish_cases t below o result
  · rw [hon]
    rfl
  · rw [hover]
    rfl

theorem imprints_moveInside {i : Nat} (b : Behaviour) :
    e.Imprints t ((e.moveInside t below o c i b).engine e) := by
  cases b with
  | finish context outcome =>
    simp only [moveInside]
    split <;> exact .nothing
  | panic context payload =>
    simp only [moveInside, tearDown]
    split <;> rw [engine_answer]
    · exact .nothing
    · exact .nothing
    · exact .writes _
  | emit emission rest => exact .writes _
  | cancel rest => exact .cancels
  | await context signal rest =>
    simp only [moveInside]
    split <;> exact .nothing
  | locate r next => exact .nothing
  | launch context r q next => exact .nothing

theorem imprints_moveActing {plan : Plan} (hp : t.parked = false)
    (ht : t.frames = .driving o c (.acting plan) :: below) :
    e.Imprints t ((e.moveActing t below o c plan).engine e) := by
  obtain ⟨effects, turn⟩ := plan
  cases effects with
  | cons effect es =>
    have hperform : e.Imprints t (e.perform c effect).1 := by
      cases effect with
      | save next => exact .saves hp ht
      | publish news => exact .publishes _
      | settle s => exact .settles ht s
    simp only [moveActing]
    split <;> exact hperform
  | nil =>
    cases turn with
    | arrive index => exact .nothing
    | stop result =>
      simp only [moveActing, engine_finish]
      exact .nothing
    | suspend next due =>
      have hrests : e.Imprints t (e.suspend c t.token next due).1 := .rests hp ht
      simp only [moveActing]
      split
      · rw [engine_finish]
        exact hrests
      · exact hrests

theorem imprints_moveDriving {stage : Stage} (hp : t.parked = false)
    (ht : t.frames = .driving o c stage :: below) :
    e.Imprints t ((e.moveDriving t below o c stage).engine e) := by
  cases stage with
  | entering index =>
    simp only [moveDriving]
    split
    · exact .nothing
    · split
      · exact .nothing
      · exact .writes _
  | inside index b => exact imprints_moveInside b
  | calling index next => exact .nothing
  | acting plan => exact imprints_moveActing hp ht
  | halting fault =>
    simp only [moveDriving, halt]
    split <;> rw [engine_answer]
    · exact .nothing
    · exact .nothing
    · exact .nothing
    · exact .settles ht _

theorem imprints_moveOpening {r : RunnerId} {q : Request} {resuming : Bool} :
    e.Imprints t ((e.moveOpening t below r q resuming).engine e) := by
  have hopens := e.opens_moveOpening t below r q resuming
  generalize e.moveOpening t below r q resuming = m at hopens ⊢
  cases hopens with
  | unknown =>
    rw [refuse, engine_answer]
    exact .nothing
  | answers journal reply =>
    rw [engine_answer]
    exact .consults q journal
  | starts journal => exact .starts q journal

/-- **A move changes its engine in one of a few ways.** -/
theorem imprints_move (e : Engine) (t : Task) : e.Imprints t ((e.move t).engine e) := by
  cases hp : t.parked with
  | true =>
    have hlooks := e.looks_move hp
    generalize e.move t = m, e.deedsOf t = ds, e.told t = ts at hlooks ⊢
    cases hlooks with
    | giveUp => exact .nothing
    | takeUp => exact .nothing
    | wait => exact .nothing
  | false =>
    rw [move_of_unparked hp]
    unfold moveTop
    split
    · exact .nothing
    · exact imprints_moveOpening
    · rename_i ht
      exact imprints_moveDriving hp ht
    · split
      · rw [engine_answer]
        exact .nothing
      · split
        · exact .nothing
        · rw [refuse, engine_answer]
          exact .nothing
    · split
      · exact .nothing
      · split <;> exact .nothing

end Engine

end DurableFlow
