import DurableFlow.Proofs.Soundness.Frames

/-!
# Openings of requests

When a request is opened, the instance that it names, or a new one, is looked up. Then the call is
answered at once, or a chain starts at the position that the store tells. All that can come of an
opening is said here (`Engine.Opens`, `Engine.opens_moveOpening`); what an opening keeps, and what it
starts, is read off from there.
-/

namespace DurableFlow

namespace Engine

variable {e : Engine} {t : Task} {below : List Frame} {q : Request}

/-! ## Requests -/

/-- The identity of a request that names one. -/
theorem identify_of_inst {x : String} (hx : q.inst = some x) (m : Engine) :
    (m.identify q).1 = x := by
  simp [identify, hx]

/-- To identify an instance, an identity is made up at most. -/
theorem identify_eq (e : Engine) (q : Request) :
    (e.identify q).2 = { e with identities := (e.identify q).2.identities } := by
  unfold identify
  split <;> rfl

theorem identities_le_identify (e : Engine) (q : Request) :
    e.identities ≤ (e.identify q).2.identities := by
  unfold identify
  split
  · exact le_rfl
  · exact Nat.le_succ _

theorem identities_lt_identify (hq : q.inst = none) (e : Engine) :
    e.identities < (e.identify q).2.identities := by
  simp [identify, hq]

/-- The context of a request without a function of its own is made up. -/
theorem seed_result (hinit : q.init = none) (r : RunnerId) (R : Runner) (D : Definition)
    (x : String) : (seed r R D x q).result = .ok () := by
  simp only [seed, hinit]
  cases q.event <;> rfl

/-- The context of a chain belongs to the instance that was asked for. -/
theorem inst_seed (hq : q.IsLoyal) (runner : RunnerId) (r : Runner) (d : Definition)
    (inst : String) : (seed runner r d inst q).context.inst = inst := by
  unfold seed
  dsimp only
  cases hinit : q.init with
  | none =>
    dsimp only
    split <;> split <;> rfl
  | some init =>
    dsimp only
    split
    · refine (hq init hinit _).trans ?_
      split <;> rfl
    · refine (hq init hinit _).trans ?_
      split <;> rfl

/-! ## What comes of an opening -/

/-- The engine when the instance of a request has been looked up. -/
def consulted (e : Engine) (q : Request) (journal : List Occurrence) : Engine :=
  { e with
    store := (e.store.load (e.identify q).1).1
    identities := (e.identify q).2.identities
    journal }

/-- The chain with which a request starts. -/
def opened (e : Engine) (r : RunnerId) (R : Runner) (D : Definition) (x : String) (q : Request) :
    Chain where
  definition := D
  context := (seed r R D x q).context
  dispatcher := R.dispatcher
  completion := if q.wait then some ⟨e.next⟩ else none
  number := e.next

theorem completion_opened (e : Engine) (r : RunnerId) (R : Runner) (D : Definition) (x : String)
    (q : Request) : (e.opened r R D x q).completion = none ∨
      (e.opened r R D x q).completion = some ⟨e.next⟩ := by
  cases hwait : q.wait with
  | true => exact .inr (if_pos hwait)
  | false => exact .inl (by simp [opened, hwait])

/-- What can come of a request that is opened. -/
inductive Opens (e : Engine) (t : Task) (below : List Frame) (r : RunnerId) (q : Request) :
    Move → Prop
  /-- No workflow of the name is known. -/
  | unknown (h : ∀ R, e.runners.get? r = some R → R.registry.find? q.workflow = none) :
      Opens e t below r q (e.refuse t below (.workflowNotFound q.workflow))
  /-- No position is told, or the context of the instance cannot be made up. -/
  | answers {D : Definition} {R : Runner} (journal : List Occurrence) (reply : Reply)
      (hR : e.runners.get? r = some R) (hD : R.registry.find? q.workflow = some D)
      (hpanics : ∀ p, reply = .panicked p → q.init ≠ none) :
      Opens e t below r q ((e.consulted q journal).answer t below reply)
  | starts {D : Definition} {R : Runner} {p : Option Nat} (journal : List Occurrence)
      (hR : e.runners.get? r = some R) (hD : R.registry.find? q.workflow = some D)
      (hload : (e.load (e.identify q).1).2 = .ok p) :
      Opens e t below r q (.on { e.consulted q journal with next := e.next + 1 }
        (t.doing (.driving (.call r (e.opened r R D (e.identify q).1 q).completion)
          (e.opened r R D (e.identify q).1 q) (.entering (p.getD 0)) :: below)))

/-- **A request that is opened is answered at once, or starts a chain.** -/
theorem opens_moveOpening (e : Engine) (t : Task) (below : List Frame) (r : RunnerId) (q : Request)
    (resuming : Bool) : e.Opens t below r q (e.moveOpening t below r q resuming) := by
  unfold moveOpening
  cases hR : e.runners.get? r with
  | none => exact .unknown (by simp [hR])
  | some R =>
    dsimp only
    cases hD : R.registry.find? q.workflow with
    | none => exact .unknown (by simp [hR, hD])
    | some D =>
      dsimp only
      rw [e.identify_eq q]
      split
      · exact .answers _ _ hR hD (by simp)
      · exact .answers _ _ hR hD (by simp)
      · rename_i position _ hload _
        obtain ⟨journal, hjournal⟩ := foldl_record
          (load { e with identities := (e.identify q).2.identities } (e.identify q).1).1
          (seed r R D (e.identify q).1 q).emissions
        rw [hjournal]
        split
        · rename_i p hp
          refine .answers journal _ hR hD fun _ _ hinit => ?_
          -- Only a request that seeds its context panics there.
          rw [seed_result hinit] at hp
          cases hp
        · exact .starts journal hR hD hload

theorem started_answer (e : Engine) (t : Task) (below : List Frame) (reply : Reply) :
    (e.answer t below reply).started = [] := by
  unfold answer
  split
  · rfl
  · split <;> rfl

end Engine

end DurableFlow
