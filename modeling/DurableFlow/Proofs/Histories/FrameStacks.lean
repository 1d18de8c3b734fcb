import DurableFlow.Proofs.Soundness.Moves

/-!
# Stacks of frames

What a move makes of the frames of a task is a matter of the innermost frame. By itself it becomes
one or two others, or it is over (`Engine.moveTop_alone`); the frames below it stay as they are, but
for the one that it returns to (`Engine.moveTop_cons`).

Main statement: the frames that stand after a move stand there in one of four ways
(`Engine.restacks_move`). What is claimed of all frames of all tasks need only be looked at in these
ways.
-/

namespace DurableFlow

/-! ## The innermost frame -/

/-- Whether nothing of a step is left in a stage. -/
def Stage.isQuiet : Stage → Bool
  | .inside _ _ | .calling _ _ => false
  | _ => true

/-- How a behaviour goes on by itself in an engine. -/
inductive Behaviour.GoesOn (e : Engine) : Behaviour → Behaviour → Prop
  | emit {x b} : GoesOn e (.emit x b) b
  | cancel {b} : GoesOn e (.cancel b) b
  | await {c s b} : GoesOn e (.await c s b) b
  | locate {r next} : GoesOn e (.locate r next) (next (e.isAlive r))

/-- What becomes of the innermost frame of a task that is taken on, if it is not over. -/
inductive Frame.Becomes (e : Engine) : Frame → List Frame → Prop
  | stay {f} : Becomes e f [f]
  | start {r q resuming o c i} (h : ∃ runner, e.runners.get? r = some runner ∧
      runner.registry.find? q.workflow = some c.definition) :
      Becomes e (.opening r q resuming) [.driving o c (.entering i)]
  | execute {o c i s} (h : c.definition.step? i = some s) :
      Becomes e (.driving o c (.entering i)) [.driving o c (.inside i (s.execute c.context))]
  | goOn {o c i b b'} (h : b.GoesOn e b') :
      Becomes e (.driving o c (.inside i b)) [.driving o c (.inside i b')]
  | launch {o c i context r q next} :
      Becomes e (.driving o c (.inside i (.launch context r q next)))
        [.opening r q false, .driving o c (.calling i next)]
  | turn {o c c' stage stage'} (hc : c'.definition = c.definition) (h : stage'.isQuiet = true) :
      Becomes e (.driving o c stage) [.driving o c' stage']
  | receive {o c stage r k} : Becomes e (.driving o c stage) [.receiving r k]

/-- The innermost frame is over with a panic: its request seeds the context, or it is a step. -/
inductive Frame.Panics : Frame → Panic → Prop
  | seed {r q resuming p} (h : q.init ≠ none) : Panics (.opening r q resuming) p
  | step {o c i context p} : Panics (.driving o c (.inside i (.panic context p))) p

/-- What comes of a frame that is taken on with none below it. -/
def Move.Alone (e : Engine) (f : Frame) : Move → Prop
  | .on _ t => f.Becomes e t.frames
  | .over _ (.panicked p) => f.Panics p
  | _ => True

/-- The move of a frame with others below it. -/
def Move.onto (t : Task) (below : List Frame) : Move → Move
  | .on e t' => .on e (t'.doing (t'.frames ++ below))
  | .over e (.returned s) => e.answer t below (.settled s)
  | .over e (.panicked p) => e.answer t below (.panicked p)
  | m => m

theorem Task.token_doing (t : Task) (fs : List Frame) : (t.doing fs).token = t.token := rfl

theorem Task.frames_doing (t : Task) (fs : List Frame) : (t.doing fs).frames = fs := rfl

namespace Engine

/-- What the innermost frame of a task returns when it is taken on, if it is over then. -/
def handed? (e : Engine) (t : Task) : Option Reply :=
  match t.frames with
  | [] => none
  | f :: _ =>
    match e.moveTop (t.doing [f]) with
    | .over _ (.returned s) => some (.settled s)
    | .over _ (.panicked p) => some (.panicked p)
    | _ => none

/-- The frames that stand of a task after a move. -/
inductive Restacks (e : Engine) (t : Task) : List Frame → Prop
  /-- The outermost step is given up, with all that it waits for. -/
  | abandon {o c} : Restacks e t [.driving o c (.halting .cancelled)]
  | look : Restacks e t t.frames
  | go {f fs below} (ht : t.frames = f :: below) (h : f.Becomes e fs) : Restacks e t (fs ++ below)
  /-- The innermost frame is over and hands a reply to the step that waits for it. -/
  | hand {f o c i next below reply} (ht : t.frames = f :: .driving o c (.calling i next) :: below)
      (hreply : e.handed? t = some reply) (hpanics : ∀ p, reply = .panicked p → f.Panics p) :
      Restacks e t (.driving o c (.inside i (next reply)) :: below)

variable {e m : Engine} {t : Task} {f : Frame} {below : List Frame} {o : Origin} {c : Chain}
  {stage : Stage} {reply : Reply}

theorem alone_finish (result : RunResult) :
    (m.finish t [] o result).Alone e (.driving o c stage) := by
  cases o with
  | call r receiver =>
    cases receiver with
    | some k => exact .receive
    | none => trivial
  | _ => trivial

theorem alone_halt (fault : Fault) : (m.halt t [] o c fault).Alone e f := by
  cases o with
  | call r receiver => cases receiver <;> trivial
  | _ => trivial

theorem alone_moveOpening (id : RunnerId) (q : Request) (resuming : Bool) :
    (e.moveOpening t [] id q resuming).Alone e (.opening id q resuming) := by
  have hopens := e.opens_moveOpening t [] id q resuming
  generalize e.moveOpening t [] id q resuming = m at hopens ⊢
  cases hopens with
  | unknown => trivial
  | answers journal reply _ _ hpanics =>
    cases reply with
    | settled s => trivial
    | panicked p => exact .seed (hpanics p rfl)
  | @starts D R p journal hR hD _ => exact .start ⟨R, hR, hD⟩

theorem alone_moveInside (i : Nat) (b : Behaviour) (ht : t.frames = [.driving o c (.inside i b)]) :
    (e.moveInside t [] o c i b).Alone e (.driving o c (.inside i b)) := by
  cases b with
  | finish context outcome =>
    simp only [moveInside]
    split
    · exact .turn rfl rfl
    · exact .turn rfl rfl
  | panic context p => cases o <;> exact .step
  | emit x rest => exact .goOn .emit
  | cancel rest => exact .goOn .cancel
  | await context signal rest =>
    simp only [moveInside]
    split
    · exact .goOn .await
    · show Frame.Becomes e _ t.frames
      exact ht ▸ .stay
  | locate r next => exact .goOn .locate
  | launch context r q next => exact .launch

theorem definition_perform (e : Engine) (c : Chain) (effect : Effect) :
    (e.perform c effect).2.1.definition = c.definition := by
  cases effect <;> rfl

theorem alone_moveActing (plan : Plan) :
    (e.moveActing t [] o c plan).Alone e (.driving o c (.acting plan)) := by
  obtain ⟨effects, turn⟩ := plan
  cases effects with
  | cons effect es =>
    simp only [moveActing]
    split
    · exact .turn (e.definition_perform c effect) rfl
    · exact .turn (e.definition_perform c effect) rfl
  | nil =>
    cases turn with
    | arrive i => exact .turn rfl rfl
    | stop result => exact alone_finish result
    | suspend next due =>
      simp only [moveActing]
      split
      · exact alone_finish _
      · exact .turn rfl rfl

/-- **A frame that is taken on by itself** becomes others or is over. -/
theorem moveTop_alone (e : Engine) (t : Task) (f : Frame) : (e.moveTop (t.doing [f])).Alone e f := by
  cases f with
  | opening id q resuming => exact alone_moveOpening id q resuming
  | driving o c stage =>
    cases stage with
    | entering i =>
      simp only [moveTop, Task.frames_doing, moveDriving]
      split
      · exact .turn rfl rfl
      · rename_i s hs
        split
        · exact .turn rfl rfl
        · exact .execute hs
    | inside i b => exact alone_moveInside i b rfl
    | calling i next => trivial
    | acting plan => exact alone_moveActing plan
    | halting fault => exact alone_halt fault
  | receiving r k =>
    simp only [moveTop, Task.frames_doing]
    split
    · trivial
    · split
      · exact .stay
      · trivial
  | listening k =>
    simp only [moveTop, Task.frames_doing]
    split
    · trivial
    · split
      · exact .stay
      · trivial

/-! ## The frames below -/

section

variable (e : Engine) (t : Task) (f : Frame) (below : List Frame)

theorem onto_finish (o : Origin) (result : RunResult) :
    (e.finish (t.doing [f]) [] o result).onto t below =
      e.finish (t.doing (f :: below)) below o result := by
  cases o with
  | call r receiver => cases receiver <;> rfl
  | _ => rfl

theorem onto_halt (o : Origin) (c : Chain) (fault : Fault) :
    (e.halt (t.doing [f]) [] o c fault).onto t below =
      e.halt (t.doing (f :: below)) below o c fault := by
  cases o with
  | call r receiver => cases receiver <;> rfl
  | _ => rfl

theorem onto_moveOpening (id : RunnerId) (q : Request) (resuming : Bool) :
    (e.moveOpening (t.doing [f]) [] id q resuming).onto t below =
      e.moveOpening (t.doing (f :: below)) below id q resuming := by
  unfold moveOpening
  split
  · rfl
  · split
    · rfl
    · dsimp only
      split
      · rfl
      · rfl
      · split <;> rfl

theorem onto_moveInside (o : Origin) (c : Chain) (i : Nat) (b : Behaviour) :
    (e.moveInside (t.doing [f]) [] o c i b).onto t below =
      e.moveInside (t.doing (f :: below)) below o c i b := by
  cases b with
  | finish context outcome =>
    simp only [moveInside]
    split <;> rfl
  | await context signal rest =>
    by_cases hs : e.isSignalled t.token signal = true <;>
      simp only [moveInside, Task.token_doing, hs] <;> rfl
  | panic context payload => cases o <;> rfl
  | _ => rfl

theorem onto_moveActing (o : Origin) (c : Chain) (plan : Plan) :
    (e.moveActing (t.doing [f]) [] o c plan).onto t below =
      e.moveActing (t.doing (f :: below)) below o c plan := by
  obtain ⟨effects, turn⟩ := plan
  cases effects with
  | cons effect es =>
    simp only [moveActing]
    split <;> rfl
  | nil =>
    cases turn with
    | arrive i => rfl
    | stop result => exact onto_finish ..
    | suspend next due =>
      simp only [moveActing, Task.token_doing]
      split
      · exact onto_finish ..
      · rfl

/-- **The frames below matter to a move only in that the innermost frame returns to them.** -/
theorem moveTop_cons :
    e.moveTop (t.doing (f :: below)) = (e.moveTop (t.doing [f])).onto t below := by
  cases f with
  | opening id q resuming => exact (onto_moveOpening ..).symm
  | driving o c stage =>
    cases stage with
    | entering i =>
      simp only [moveTop, Task.frames_doing, moveDriving, Task.token_doing]
      split
      · rfl
      · by_cases hc : e.isCancelled t.token = true <;> simp only [hc] <;> rfl
    | inside i b => exact (onto_moveInside ..).symm
    | calling i next => rfl
    | acting plan => exact (onto_moveActing ..).symm
    | halting fault => exact (onto_halt ..).symm
  | receiving r k =>
    simp only [moveTop, Task.frames_doing]
    split
    · rfl
    · split <;> rfl
  | listening k =>
    simp only [moveTop, Task.frames_doing]
    split
    · rfl
    · split <;> rfl

end

/-! ## Moves -/

/-- A reply that is handed on goes to a step that waits for it. -/
theorem restacks_answer (ht : t.frames = f :: below) (hreply : e.handed? t = some reply)
    (hpanics : ∀ p, reply = .panicked p → f.Panics p) {m' : Engine} {u : Task}
    (h : m.answer t below reply = .on m' u) : e.Restacks t u.frames := by
  unfold answer at h
  split at h
  · cases h
    exact .hand ht hreply hpanics
  · cases reply <;> cases h

/-- **The frames that stand after a move stand there in one of four ways.** -/
theorem restacks_move {u : Task} (h : e.move t = .on m u) : e.Restacks t u.frames := by
  cases hp : t.parked with
  | true =>
    have hlooks := e.looks_move hp
    generalize e.deedsOf t = ds, e.told t = ts at hlooks
    rw [h] at hlooks
    cases hlooks with
    | giveUp => exact .abandon
    | takeUp => exact .look
  | false =>
    rw [move_of_unparked hp] at h
    cases hfs : t.frames with
    | nil => simp [moveTop, hfs] at h
    | cons f below =>
      have hself : t = t.doing (f :: below) := by rw [← hfs]; rfl
      have halone := e.moveTop_alone t f
      have hhanded : e.handed? t = match e.moveTop (t.doing [f]) with
          | .over _ (.returned s) => some (.settled s)
          | .over _ (.panicked p) => some (.panicked p)
          | _ => none := by
        rw [handed?, hfs]
      rw [hself, moveTop_cons] at h
      cases hmove : e.moveTop (t.doing [f]) with
      | blocked => rw [hmove] at h; cases h
      | on m' t' =>
        rw [hmove] at h halone
        cases h
        exact .go hfs halone
      | «over» m' ending =>
        rw [hmove] at h halone hhanded
        cases ending with
        | returned s => exact restacks_answer hfs hhanded (fun p heq => by cases heq) h
        | panicked p =>
          refine restacks_answer hfs hhanded (fun p' heq => ?_) h
          cases heq
          exact halone
        | heard s => cases h

end Engine

end DurableFlow
