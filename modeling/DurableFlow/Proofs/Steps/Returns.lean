import DurableFlow.Definition
import Mathlib.Logic.Relation

/-!
# What a step returns

A step may return an outcome if some course of its behaviour, for some answers to its requests, ends
with it (`Definition.Returns`). A step is loyal if it never hands back the context of another
instance: a context has no way to change whose it is, so only a body that throws its context away
and makes up another one is not. Main statements: what a loyal definition returns belongs to the
instance that it was executed for (`IsLoyal.inst_eq`), and the steps of the library are loyal if
what a user supplies to them is (`isLoyal_log`, …, `isLoyal_nestedChoice`).
-/

namespace DurableFlow

/-- A request is loyal if seeding its context does not make it the context of another instance. -/
def Request.IsLoyal (q : Request) : Prop :=
  ∀ f, q.init = some f → ∀ c : Context, (f c).context.inst = c.inst

namespace Behaviour

/-- What is left of a behaviour once its next request has been answered somehow. -/
inductive Next : Behaviour → Behaviour → Prop
  | emit (x : Emission) (b : Behaviour) : Next (emit x b) b
  | cancel (b : Behaviour) : Next (cancel b) b
  | await (c : Context) (s : Signal) (b : Behaviour) : Next (await c s b) b
  | locate (r : RunnerId) (k : Bool → Behaviour) (alive : Bool) : Next (locate r k) (k alive)
  | launch (c : Context) (r : RunnerId) (q : Request) (k : Reply → Behaviour) (reply : Reply) :
      Next (launch c r q k) (k reply)

/-- The second behaviour is what may be left of the first one at some time. -/
def Leaves : Behaviour → Behaviour → Prop := Relation.ReflTransGen Next

/-- A behaviour is loyal to an instance if it ends with contexts of that instance only, and launches
loyal requests only. -/
def IsLoyal (inst : String) : Behaviour → Prop
  | finish c _ | panic c _ => c.inst = inst
  | emit _ b | cancel b | await _ _ b => b.IsLoyal inst
  | locate _ k => ∀ alive, (k alive).IsLoyal inst
  | launch _ _ q k => q.IsLoyal ∧ ∀ reply, (k reply).IsLoyal inst

theorem IsLoyal.next {inst : String} {b b' : Behaviour} (h : b.IsLoyal inst) (hb : b.Next b') :
    b'.IsLoyal inst := by
  cases hb with
  | emit x b => exact h
  | cancel b => exact h
  | await c s b => exact h
  | locate r k alive => exact h alive
  | launch c r q k reply => exact h.2 reply

theorem IsLoyal.leaves {inst : String} {b b' : Behaviour} (h : b.IsLoyal inst)
    (hb : b.Leaves b') : b'.IsLoyal inst := by
  induction hb with
  | refl => exact h
  | tail _ hnext ih => exact ih.next hnext

theorem IsLoyal.guarded {inst : String} {b : Behaviour} (h : b.IsLoyal inst) :
    b.guarded.IsLoyal inst := by
  induction b with
  | finish c o => exact h
  | panic c p => exact h
  | emit x b ih => exact ih h
  | cancel b ih => exact ih h
  | await c s b ih => exact ih h
  | locate r k ih => exact fun alive => ih alive (h alive)
  | launch c r q k ih => exact ⟨h.1, fun reply => ih reply (h.2 reply)⟩

end Behaviour

/-- A step is loyal if it behaves so on every context. -/
def Step.IsLoyal (s : Step) : Prop := ∀ c, (s.execute c).IsLoyal c.inst

namespace Definition

/-- The behaviour may be left of the step at an index, executed on the context. -/
def Within (d : Definition) (i : Nat) (c : Context) (b : Behaviour) : Prop :=
  ∃ s, d.step? i = some s ∧ (s.execute c).Leaves b

/-- The step at an index, executed on the context, may return the outcome and leave the other
context behind. -/
def Returns (d : Definition) (i : Nat) (c : Context) (o : Outcome) (c' : Context) : Prop :=
  d.Within i c (.finish c' o)

/-- A definition is loyal if its steps are. -/
def IsLoyal (d : Definition) : Prop := ∀ s ∈ d.steps, s.IsLoyal

theorem within_execute {d : Definition} {i : Nat} {s : Step} (h : d.step? i = some s)
    (c : Context) : d.Within i c (s.execute c) :=
  ⟨s, h, .refl⟩

theorem Within.next {d : Definition} {i : Nat} {c : Context} {b b' : Behaviour}
    (h : d.Within i c b) (hb : b.Next b') : d.Within i c b' := by
  obtain ⟨s, hs, hl⟩ := h
  exact ⟨s, hs, hl.tail hb⟩

theorem Within.lt_size {d : Definition} {i : Nat} {c : Context} {b : Behaviour}
    (h : d.Within i c b) : i < d.size := by
  obtain ⟨s, hs, -⟩ := h
  exact (List.getElem?_eq_some_iff.1 hs).1

theorem step?_eq_none_iff {d : Definition} {i : Nat} : d.step? i = none ↔ d.size ≤ i :=
  List.getElem?_eq_none_iff

theorem IsLoyal.within {d : Definition} {i : Nat} {c : Context} {b : Behaviour} (h : d.IsLoyal)
    (hb : d.Within i c b) : b.IsLoyal c.inst := by
  obtain ⟨s, hs, hl⟩ := hb
  exact (h s (List.mem_of_getElem? hs) c).leaves hl

theorem IsLoyal.inst_eq {d : Definition} {i : Nat} {c c' : Context} {o : Outcome} (h : d.IsLoyal)
    (hr : d.Returns i c o c') : c'.inst = c.inst :=
  h.within hr

end Definition

/-! ## Standards -/

/-- What is known of the definitions and of the requests in an engine: whatever a definition
launches is such a request again. -/
structure Standard where
  definition : Definition → Prop
  request : Request → Prop
  /-- A request that does not seed its context is such a request. -/
  plain : ∀ {q}, q.init = none → request q
  launched : ∀ {d i c c' r q k}, definition d → d.Within i c (.launch c' r q k) → request q

namespace Standard

/-- Nothing is known. -/
def any : Standard where
  definition _ := True
  request _ := True
  plain _ := trivial
  launched _ _ := trivial

/-- There is one definition only. -/
def only (D : Definition) : Standard where
  definition d := d = D
  request _ := True
  plain _ := trivial
  launched _ _ := trivial

/-- The definitions are among these. -/
def among (L : List Definition) : Standard where
  definition d := d ∈ L
  request _ := True
  plain _ := trivial
  launched _ _ := trivial

/-- Definitions and requests are loyal. -/
def loyal : Standard where
  definition := Definition.IsLoyal
  request := Request.IsLoyal
  plain h := fun f hf => by rw [h] at hf; cases hf
  launched hd hb := (hd.within hb).1

end Standard

/-! ## The steps of the library -/

namespace Step

theorem isLoyal_deciding (decide : Context → Outcome) : (deciding decide).IsLoyal := fun _ => rfl

theorem isLoyal_named {s : Step} (name : String) (h : s.IsLoyal) : (named name s).IsLoyal := h

theorem isLoyal_log (message : String) (sink : Option Sink) : (log message sink).IsLoyal := by
  intro c
  simp only [log]
  split <;> exact rfl

theorem isLoyal_waitForEvent (event : String) (key : Option String) :
    (waitForEvent event key).IsLoyal := by
  intro c
  simp only [waitForEvent]
  split
  · rename_i payload c' htake
    have hinst : c'.inst = c.inst := by
      unfold Context.takeEvent at htake
      split at htake
      · split at htake
        · obtain ⟨-, rfl⟩ := Prod.mk.inj (Option.some.inj htake)
          rfl
        · cases htake
      · cases htake
    exact hinst
  · exact rfl

theorem isLoyal_branch (condition : Predicate) {yes : Step} {no : Option Step}
    (hyes : yes.IsLoyal) (hno : ∀ s, no = some s → s.IsLoyal) :
    (branch condition yes no).IsLoyal := by
  intro c
  simp only [branch]
  split
  · exact (hyes c).guarded
  · rename_i s _
    exact (hno s rfl c).guarded
  · exact rfl
  · exact rfl

theorem isLoyal_code {body : Context → Behaviour} (h : ∀ c, (body c).IsLoyal c.inst) :
    (code body).IsLoyal :=
  fun c => (h c).guarded

end Step

/-- A nested run never seeds its context by a function of its own. -/
theorem Nested.init_request {n : Nested} {c : Context} {q : Request} (h : n.request c = .ok q) :
    q.init = none := by
  simp only [request, bind, Except.bind, pure, Except.pure] at h
  cases hin : n.input <;> cases hinst : n.inst <;> simp only [hin, hinst] at h
  case none.none => cases h; rfl
  case none.some select =>
    cases hs : select c with
    | error p => simp [hs] at h
    | ok inst => simp only [hs] at h; cases h; rfl
  case some.none select =>
    cases hs : select c with
    | error p => simp [hs] at h
    | ok v => simp only [hs] at h; cases h; rfl
  case some.some select select' =>
    cases hs : select c with
    | error p => simp [hs] at h
    | ok v =>
      cases hs' : select' c with
      | error p => simp [hs, hs'] at h
      | ok inst => simp only [hs, hs'] at h; cases h; rfl

theorem Nested.isLoyal_request {n : Nested} {c : Context} {q : Request}
    (h : n.request c = .ok q) : q.IsLoyal := by
  intro f hf
  rw [init_request h] at hf
  cases hf

theorem Nested.isLoyal_conclude (n : Nested) (c : Context) (reply : Reply) :
    (n.conclude c reply).IsLoyal c.inst := by
  unfold conclude
  split
  · exact rfl
  · exact rfl
  · split
    · exact rfl
    · split
      · exact rfl
      · simp only [Behaviour.IsLoyal]
        split <;> rfl

theorem Nested.isLoyal_start (n : Nested) (c : Context) : (n.start c).IsLoyal c.inst := by
  unfold start
  split
  · exact rfl
  · intro alive
    cases alive with
    | false => exact rfl
    | true =>
      simp only [if_true]
      split
      · rename_i q hq
        exact ⟨isLoyal_request hq, n.isLoyal_conclude c⟩
      · exact rfl

theorem Nested.isLoyal_nested (n : Nested) : n.step.IsLoyal := n.isLoyal_start

theorem NestedChoice.isLoyal_nestedChoice (n : NestedChoice) : n.step.IsLoyal := by
  intro c
  simp only [step]
  split
  · exact rfl
  · exact (n.nested n.yes).isLoyal_start c
  · exact (n.nested _).isLoyal_start c
  · exact rfl

end DurableFlow
