import DurableFlow.Proofs.Steps.Returns

/-!
# What a step makes of an event

A step is discreet if it makes up no event: the context that it hands back holds the event that was
delivered to it, or none. Main statement: the steps of the library are discreet if what a user
supplies to them is (`Step.isDiscreet_log`, …, `NestedChoice.isDiscreet_nestedChoice`).
-/

namespace DurableFlow

/-- A request is discreet if seeding its context makes up no event. -/
def Request.IsDiscreet (q : Request) : Prop :=
  ∀ f, q.init = some f → ∀ c : Context, c.event = none → (f c).context.event = none

namespace Behaviour

/-- A behaviour that has been given an event is discreet if it hands back that one or none, and
launches discreet requests only. -/
def IsDiscreet (given : Option Event) : Behaviour → Prop
  | finish c _ | panic c _ => c.event = given ∨ c.event = none
  | emit _ b | cancel b | await _ _ b => b.IsDiscreet given
  | locate _ k => ∀ alive, (k alive).IsDiscreet given
  | launch _ _ q k => q.IsDiscreet ∧ ∀ reply, (k reply).IsDiscreet given

variable {given : Option Event} {b b' : Behaviour}

theorem IsDiscreet.next (h : b.IsDiscreet given) (hb : b.Next b') : b'.IsDiscreet given := by
  cases hb with
  | emit x b => exact h
  | cancel b => exact h
  | await c s b => exact h
  | locate r k alive => exact h alive
  | launch c r q k reply => exact h.2 reply

theorem IsDiscreet.leaves (h : b.IsDiscreet given) (hb : b.Leaves b') : b'.IsDiscreet given := by
  induction hb with
  | refl => exact h
  | tail _ hnext ih => exact ih.next hnext

theorem IsDiscreet.guarded (h : b.IsDiscreet given) : b.guarded.IsDiscreet given := by
  induction b with
  | finish c o => exact h
  | panic c p => exact h
  | emit x b ih => exact ih h
  | cancel b ih => exact ih h
  | await c s b ih => exact ih h
  | locate r k ih => exact fun alive => ih alive (h alive)
  | launch c r q k ih => exact ⟨h.1, fun reply => ih reply (h.2 reply)⟩

end Behaviour

/-- A step is discreet if it behaves so on every context. -/
def Step.IsDiscreet (s : Step) : Prop := ∀ c, (s.execute c).IsDiscreet c.event

/-- A definition is discreet if its steps are. -/
def Definition.IsDiscreet (d : Definition) : Prop := ∀ s ∈ d.steps, s.IsDiscreet

theorem Definition.IsDiscreet.within {d : Definition} {i : Nat} {c : Context} {b : Behaviour}
    (h : d.IsDiscreet) (hb : d.Within i c b) : b.IsDiscreet c.event := by
  obtain ⟨s, hs, hl⟩ := hb
  exact (h s (List.mem_of_getElem? hs) c).leaves hl

/-- Definitions and requests are discreet. -/
def Standard.discreet : Standard where
  definition := Definition.IsDiscreet
  request := Request.IsDiscreet
  plain h := fun f hf => by rw [h] at hf; cases hf
  launched hd hb := (hd.within hb).1

/-! ## The steps of the library -/

namespace Step

theorem isDiscreet_deciding (decide : Context → Outcome) : (deciding decide).IsDiscreet :=
  fun _ => .inl rfl

theorem isDiscreet_named {s : Step} (name : String) (h : s.IsDiscreet) :
    (named name s).IsDiscreet := h

theorem isDiscreet_log (message : String) (sink : Option Sink) : (log message sink).IsDiscreet := by
  intro c
  simp only [log]
  split <;> exact .inl rfl

theorem isDiscreet_waitForEvent (event : String) (key : Option String) :
    (waitForEvent event key).IsDiscreet := by
  intro c
  simp only [waitForEvent]
  split
  · rename_i payload c' htake
    have hnone : c'.event = none := by
      unfold Context.takeEvent at htake
      split at htake
      · split at htake
        · obtain ⟨-, rfl⟩ := Prod.mk.inj (Option.some.inj htake)
          rfl
        · cases htake
      · cases htake
    exact .inr hnone
  · exact .inl rfl

theorem isDiscreet_branch (condition : Predicate) {yes : Step} {no : Option Step}
    (hyes : yes.IsDiscreet) (hno : ∀ s, no = some s → s.IsDiscreet) :
    (branch condition yes no).IsDiscreet := by
  intro c
  simp only [branch]
  split
  · exact (hyes c).guarded
  · rename_i s _
    exact (hno s rfl c).guarded
  · exact .inl rfl
  · exact .inl rfl

theorem isDiscreet_code {body : Context → Behaviour} (h : ∀ c, (body c).IsDiscreet c.event) :
    (code body).IsDiscreet :=
  fun c => (h c).guarded

end Step

theorem Nested.isDiscreet_request {n : Nested} {c : Context} {q : Request}
    (h : n.request c = .ok q) : q.IsDiscreet := by
  intro f hf
  rw [init_request h] at hf
  cases hf

theorem Nested.isDiscreet_conclude (n : Nested) (c : Context) (reply : Reply) :
    (n.conclude c reply).IsDiscreet c.event := by
  unfold conclude
  split
  · exact .inl rfl
  · exact .inl rfl
  · split
    · exact .inl rfl
    · split
      · exact .inl rfl
      · refine .inl ?_
        split <;> rfl

theorem Nested.isDiscreet_start (n : Nested) (c : Context) : (n.start c).IsDiscreet c.event := by
  unfold start
  split
  · exact .inl rfl
  · intro alive
    cases alive with
    | false => exact .inl rfl
    | true =>
      simp only [if_true]
      split
      · rename_i q hq
        exact ⟨isDiscreet_request hq, n.isDiscreet_conclude c⟩
      · exact .inl rfl

theorem Nested.isDiscreet_nested (n : Nested) : n.step.IsDiscreet := n.isDiscreet_start

theorem NestedChoice.isDiscreet_nestedChoice (n : NestedChoice) : n.step.IsDiscreet := by
  intro c
  simp only [step]
  split
  · exact .inl rfl
  · exact (n.nested n.yes).isDiscreet_start c
  · exact (n.nested _).isDiscreet_start c
  · exact .inl rfl

end DurableFlow
