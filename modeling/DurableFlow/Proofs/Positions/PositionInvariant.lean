import DurableFlow.Proofs.Histories.Paths
import DurableFlow.Proofs.Histories.Stories
import Mathlib.Data.List.Chain

/-!
# The position invariant

Whenever a step is executed, its index is the stored position of the instance; and a position is
saved only right after the step at the stored position has returned, as its outcome says. Hence the
indices of the steps that are executed, over all runs of an instance, are a walk: each of them is
the one before it again, or what its outcome led to.

Main statement: `Engine.Course.position_invariant`.
-/

namespace DurableFlow

/-- The position after some deeds. -/
def Deed.position (p : Nat) (l : List Deed) : Nat :=
  l.foldl (fun p d => match d with
    | .saved next => next
    | _ => p) p

theorem Deed.position_append (p : Nat) (l l' : List Deed) :
    Deed.position p (l ++ l') = Deed.position (Deed.position p l) l' :=
  List.foldl_append

theorem Deed.position_of_forall_ne {l : List Deed} (h : ∀ n, .saved n ∉ l) (p : Nat) :
    Deed.position p l = p := by
  induction l with
  | nil => rfl
  | cons d l ih =>
    have hl := ih fun n hn => h n (List.mem_cons_of_mem _ hn)
    cases d with
    | saved n => exact absurd List.mem_cons_self (h n)
    | _ => exact hl

/-- The step that is executed next is the same one again, or the one that an outcome of it leads
to. -/
def Definition.Leads (D : Definition) (l : List Deed) (i j : Nat) : Prop :=
  j = i ∨ ∃ o, .returned i o ∈ l ∧ D.saved? i o = some j

theorem Definition.Leads.append {D : Definition} {l : List Deed} {i j : Nat} (h : D.Leads l i j)
    (l' : List Deed) : D.Leads (l ++ l') i j := by
  obtain rfl | ⟨o, ho, hsaved⟩ := h
  · exact .inl rfl
  · exact .inr ⟨o, List.mem_append_left _ ho, hsaved⟩

namespace Story

variable {D : Definition} {x : String} {p₀ p : Nat} {l : List Deed} {st : Option (Chain × Phase)}

/-- The position is the one that was saved last. -/
theorem position_eq (h : Story D x p₀ l st p) : p = Deed.position p₀ l := by
  induction h with
  | nil => rfl
  | start h _ _ _ ih => rw [Deed.position_append, ← ih]; rfl
  | go h hgo ih =>
    rw [Deed.position_append, ← ih]
    cases hgo <;> rfl
  | ended h hd ih =>
    rw [Deed.position_append, ← ih]
    cases hd <;> rfl

/-- **A step is executed at the stored position.** -/
theorem executed {j : Nat} (h : Story D x p₀ l st p) (ho : Occurs p st (.executed j)) : p = j := by
  cases ho with
  | go hgo =>
    cases hgo with
    | execute hi =>
      obtain ⟨-, l₀, p₁, T, -, -, T₀, i, r, -, -, hround⟩ := h.recalls
      cases hround with
      | entering => rfl
  | ended hd => cases hd

/-- **The position is saved right after the step at the stored position has returned.** -/
theorem saved {d : Deed} {n : Nat} (h : Story D x p₀ l st p) (ho : Occurs p st d)
    (hd : d = .saved n ∨ d = .unsaved n) :
    ∃ T o, l = T ++ [.executed p, .returned p o] ∧ D.saved? p o = some n := by
  obtain ⟨c, es, turn, rfl⟩ : ∃ c es turn, st = some (c, .acting ⟨.save n :: es, turn⟩) := by
    rcases hd with rfl | rfl
    · cases ho with
      | go hgo => cases hgo with | save => exact ⟨_, _, _, rfl⟩
      | ended hd => cases hd
    · cases ho with
      | go hgo => cases hgo with | unsave => exact ⟨_, _, _, rfl⟩
      | ended hd => cases hd
  obtain ⟨-, l₀, p₁, T, rfl, -, T₀, i, r, rfl, -, hround⟩ := h.recalls
  obtain ⟨rfl, o, rfl, hsaved⟩ := hround.saving
  exact ⟨l₀ ++ T₀, o, (List.append_assoc ..).symm, hsaved⟩

/-- What the indices of the executed steps are, and where the position stands after them. -/
structure Walks (D : Definition) (p₀ : Nat) (l : List Deed) (p : Nat) : Prop where
  first : ∀ j ∈ (Deed.executions l).head?, j = p₀
  chain : (Deed.executions l).IsChain (D.Leads l)
  none : Deed.executions l = [] → p = p₀
  last : ∀ i ∈ (Deed.executions l).getLast?, D.Leads l i p

namespace Walks

/-- Deeds that neither execute a step nor save a position do not matter. -/
theorem append (h : Walks D p₀ l p) {l' : List Deed} (hl' : Deed.executions l' = []) :
    Walks D p₀ (l ++ l') p := by
  have hexecutions : Deed.executions (l ++ l') = Deed.executions l := by
    rw [Deed.executions_append, hl', List.append_nil]
  refine ⟨?_, ?_, ?_, ?_⟩
  · rw [hexecutions]; exact h.first
  · rw [hexecutions]; exact h.chain.imp fun _ _ hleads => hleads.append _
  · rw [hexecutions]; exact h.none
  · rw [hexecutions]; exact fun i hi => (h.last i hi).append l'

theorem execute (h : Walks D p₀ l p) : Walks D p₀ (l ++ [.executed p]) p := by
  have hexecutions : Deed.executions (l ++ [.executed p]) = Deed.executions l ++ [p] := by
    rw [Deed.executions_append]
    rfl
  refine ⟨?_, ?_, ?_, ?_⟩
  · rw [hexecutions]
    cases hempty : Deed.executions l with
    | nil =>
      rintro j hj
      cases hj
      exact h.none hempty
    | cons i is =>
      have hfirst := h.first
      rw [hempty] at hfirst
      exact hfirst
  · rw [hexecutions]
    refine List.isChain_append.2 ⟨h.chain.imp fun _ _ hleads => hleads.append _, List.isChain_singleton _, ?_⟩
    intro i hi j hj
    cases hj
    exact (h.last i hi).append _
  · rw [hexecutions]
    intro hnil
    cases List.append_ne_nil_of_right_ne_nil _ (List.cons_ne_nil _ _) hnil
  · rw [hexecutions, List.getLast?_append]
    rintro i hi
    cases hi
    exact .inl rfl

end Walks

/-- **The indices of the executed steps are a walk.** -/
theorem walks (h : Story D x p₀ l st p) : Walks D p₀ l p := by
  induction h with
  | nil => exact ⟨by simp [Deed.executions], .nil, fun _ => rfl, by simp [Deed.executions]⟩
  | start h _ _ _ ih => exact ih.append rfl
  | ended h hd ih =>
    refine ih.append ?_
    cases hd <;> rfl
  | @go l c φ p ds p' c' φ' h hgo ih =>
    cases hgo with
    | execute hi =>
      have hp := h.executed (.go (.execute hi))
      subst hp
      exact ih.execute
    | save =>
      obtain ⟨T, o, rfl, hsaved⟩ := h.saved (.go .save) (.inl rfl)
      have hwalks : Walks D p₀ (T ++ [.executed p, .returned p o] ++ [.saved p']) p :=
        ih.append rfl
      have hexecutions : Deed.executions (T ++ [.executed p, .returned p o] ++ [.saved p']) =
          Deed.executions T ++ [p] := by
        rw [Deed.executions_append, Deed.executions_append]
        exact List.append_nil _
      refine ⟨hwalks.first, hwalks.chain, ?_, ?_⟩
      · rw [hexecutions]
        intro hnil
        cases List.append_ne_nil_of_right_ne_nil _ (List.cons_ne_nil _ _) hnil
      · rw [hexecutions, List.getLast?_append]
        intro i hi
        cases hi
        exact .inr ⟨o, by simp, hsaved⟩
    | _ => exact ih.append rfl

end Story

namespace Engine

/-- An act does one deed at most, or chains are lost by it. -/
theorem deeds_cases (e : Engine) (a : Act) :
    e.deeds a = [] ∨ (∃ c d, e.deeds a = [(c, d)]) ∨ ∃ fs, e.deeds a = losses fs := by
  have hdeeds : ∀ (c : Chain) (d : Option Deed), (d.map (c, ·)).toList = [] ∨
      ∃ c' d', (d.map (c, ·)).toList = [(c', d')] := by
    intro c d
    cases d with
    | none => exact .inl rfl
    | some d => exact .inr ⟨c, d, rfl⟩
  have hstarted : ∀ m : Move, m.started = [] ∨ ∃ c d, m.started = [(c, d)] := by
    intro m
    unfold Move.started
    split
    · exact .inr ⟨_, _, rfl⟩
    · exact .inl rfl
  have hdeedsOf : ∀ t, e.deedsOf t = [] ∨ (∃ c d, e.deedsOf t = [(c, d)]) ∨
      ∃ fs, e.deedsOf t = losses fs := by
    intro t
    unfold deedsOf
    split
    · split
      · exact .inr (.inr ⟨_, rfl⟩)
      · exact .inl rfl
    · split
      · exact (hstarted _).imp_right .inl
      · exact (hdeeds _ _).imp_right .inl
      · exact .inl rfl
  unfold deeds
  split
  · split
    · exact hdeedsOf _
    · exact .inl rfl
  · split
    · exact .inr (.inl ⟨_, _, rfl⟩)
    · exact .inl rfl
  · split
    · exact .inr (.inr ⟨_, rfl⟩)
    · exact .inl rfl
  · exact .inl rfl

/-- A deed that is not a loss is the only one of its act. -/
theorem deeds_eq_singleton {e : Engine} {a : Act} {c : Chain} {d : Deed} (h : (c, d) ∈ e.deeds a)
    (hd : d ≠ .lost) : e.deeds a = [(c, d)] := by
  obtain hnone | ⟨c', d', hone⟩ | ⟨fs, hlosses⟩ := e.deeds_cases a
  · rw [hnone] at h
    cases h
  · rw [hone] at h ⊢
    rw [List.mem_singleton.1 h]
  · rw [hlosses] at h
    obtain ⟨c', -, heq⟩ := List.mem_map.1 h
    exact absurd (Prod.mk.inj heq).2.symm hd

/-- An act keeps the invariant for an instance of which the story so far is given. -/
structure KeepsPosition (m : Engine) (D : Definition) (x : String) (l : List Deed) (a : Act) :
    Prop where
  /-- A step is executed at the stored position. -/
  executed : ∀ c j, (c, .executed j) ∈ m.deeds a → c.inst = x → m.position x = j
  /-- Whoever saves a position, or fails to, has just returned from the step at the stored one. -/
  saving : ∀ c d n, (c, d) ∈ m.deeds a → c.inst = x → d = .saved n ∨ d = .unsaved n →
    ∃ T o, l = T ++ [.executed (m.position x), .returned (m.position x) o] ∧
      D.saved? (m.position x) o = some n
  saved : ∀ c n, (c, .saved n) ∈ m.deeds a → c.inst = x → (m.act a).position x = n
  kept : (∀ c n, (c, .saved n) ∈ m.deeds a → c.inst ≠ x) → (m.act a).position x = m.position x

namespace Course

variable {e : Engine} {D : Definition} {x : String} {as before after : List Act} {a : Act}
  {c : Chain} {d : Deed}

/-- The story of an instance in the course of a history, and its position. -/
theorem story (h : e.Course D x as) :
    ∃ st, Story D x (e.position x) (e.story x as) st ((e.after as).position x) := by
  obtain ⟨st, hstory, -⟩ := h.follows
  exact ⟨st, hstory⟩

/-- A deed that is done for the instance was next in its story. -/
theorem occurs (h : e.Course D x (before ++ [a])) (hd : (c, d) ∈ (e.after before).deeds a)
    (hlost : d ≠ .lost) (hx : c.inst = x) :
    e.story x (before ++ [a]) = e.story x before ++ [d] ∧
      ∃ st, Story D x (e.position x) (e.story x before) st ((e.after before).position x) ∧
        Occurs ((e.after before).position x) st d := by
  have hown : (c.inst == x) = true := beq_iff_eq.2 hx
  have hdeed : e.story x (before ++ [a]) = e.story x before ++ [d] := by
    rw [Engine.story, chronicle_concat, Deed.of_append, deeds_eq_singleton hd hlost,
      Deed.of_singleton_of_pos hown]
    rfl
  obtain ⟨st, hstory⟩ := h.story
  obtain ⟨st₀, hstory₀⟩ := h.left.story
  obtain ⟨st₁, p₁, hstory₁, hoccurs⟩ := hstory.occurs hdeed
  have hp₁ : p₁ = (e.after before).position x := hstory₁.position_eq.trans hstory₀.position_eq.symm
  subst hp₁
  exact ⟨hdeed, st₁, hstory₁, hoccurs⟩

theorem keepsPosition (h : e.Course D x (before ++ [a])) :
    (e.after before).KeepsPosition D x (e.story x before) a := by
  obtain ⟨st, hstory⟩ := h.story
  obtain ⟨st₀, hstory₀⟩ := h.left.story
  have hposition := hstory.position_eq
  rw [after_concat] at hposition
  refine ⟨?_, ?_, ?_, ?_⟩
  · intro c j hd hx
    obtain ⟨-, st₁, hstory₁, hoccurs⟩ := h.occurs hd (by simp) hx
    exact hstory₁.executed hoccurs
  · intro c d n hd hx hn
    have hlost : d ≠ .lost := by rcases hn with rfl | rfl <;> simp
    obtain ⟨-, st₁, hstory₁, hoccurs⟩ := h.occurs hd hlost hx
    exact hstory₁.saved hoccurs hn
  · intro c n hd hx
    obtain ⟨hdeed, -⟩ := h.occurs hd (by simp) hx
    rw [hposition, hdeed, Deed.position_append]
    rfl
  · intro hnone
    have hsaved : ∀ n, .saved n ∉ Deed.of (fun c => c.inst == x) ((e.after before).deeds a) := by
      intro n hn
      obtain ⟨c, hd, hx⟩ := Deed.mem_of.1 hn
      exact hnone c n hd (beq_iff_eq.1 hx)
    rw [hposition, Engine.story, chronicle_concat, Deed.of_append, Deed.position_append,
      Deed.position_of_forall_ne hsaved]
    exact hstory₀.position_eq.symm

/-- **The position invariant.** Whatever happens, a step of an instance is executed at the stored
position, and a position is saved for it only right after the step at the stored position has
returned, as the outcome says. The indices of the executed steps are a walk from the position at
which the first run started. -/
theorem position_invariant (h : e.Course D x as) :
    (∀ before a after, as = before ++ a :: after →
      (e.after before).KeepsPosition D x (e.story x before) a) ∧
    (∀ j ∈ (Deed.executions (e.story x as)).head?, j = e.position x) ∧
    (Deed.executions (e.story x as)).IsChain (D.Leads (e.story x as)) := by
  obtain ⟨st, hstory⟩ := h.story
  refine ⟨?_, hstory.walks.first, hstory.walks.chain⟩
  rintro before a after rfl
  rw [List.append_cons] at h
  exact h.left.keepsPosition

end Course

end Engine

/-- The greeting executes its two steps at the positions that are stored then. -/
theorem Greeting.positions :
    Greeting.engine.position "x" = 0 ∧
      (Deed.executions (Greeting.engine.story "x" Greeting.acts)) = [0, 1] ∧
      (Deed.executions (Greeting.engine.story "x" Greeting.acts)).IsChain
        (Greeting.definition.Leads (Greeting.engine.story "x" Greeting.acts)) ∧
      (Greeting.engine.after (Greeting.acts.take 3)).KeepsPosition Greeting.definition "x"
        (Greeting.engine.story "x" (Greeting.acts.take 3)) (.advance 2) := by
  have h := Greeting.course.position_invariant
  refine ⟨by decide +kernel, by decide +kernel, h.2.2, h.1 _ _ (Greeting.acts.drop 4) ?_⟩
  rfl

end DurableFlow
