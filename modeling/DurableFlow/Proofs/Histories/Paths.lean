import DurableFlow.Proofs.Histories.Rounds

/-!
# Paths through a definition

If the outcomes of the steps of a definition depend on the steps only, then the steps that follow
from a position are a path (`Definition.Path`). Two paths from the same position agree for as long
as both go on (`Path.compare`), and there is one way only to where nothing follows any more
(`Arrives.unique`). What a chain executes since it started is such a path (`Recalls.stands`).
-/

namespace DurableFlow

/-- Nothing else is left of a behaviour that has finished. -/
theorem Behaviour.eq_of_leaves_finish {c : Context} {o : Outcome} {b : Behaviour}
    (h : (finish c o).Leaves b) : b = finish c o := by
  obtain heq | ⟨b', hnext, -⟩ := h.cases_head
  · exact heq.symm
  · cases hnext

namespace Definition

/-- What the steps return depends on the steps only. -/
def IsSteady (D : Definition) : Prop :=
  ∀ i c o c' k o' k', D.Returns i c o c' → D.Returns i k o' k' → o = o'

/-- The position at which a chain goes on after the outcome of a step. -/
def next? (D : Definition) (i : Nat) : Outcome → Option Nat
  | .wait _ => none
  | o => D.saved? i o

theorem next_of_saved (D : Definition) {i n : Nat} {o : Outcome} (h : D.saved? i o = some n) :
    n = i ∨ D.next? i o = some n := by
  cases o with
  | wait message => exact .inl (Option.some.inj h).symm
  | _ => exact .inr h

/-- The steps that follow from a position up to another one, if each returns its outcome. -/
inductive Path (D : Definition) (f : Nat → Outcome) : Nat → List Nat → Nat → Prop
  | here {p} : Path D f p [] p
  | step {p q r is} (hp : p < D.size) (h : D.next? p (f p) = some q) (hs : Path D f q is r) :
      Path D f p (p :: is) r

variable {D : Definition} {f : Nat → Outcome} {p q r : Nat} {is js : List Nat}

/-- The outcomes of a steady definition. -/
theorem IsSteady.outcome (h : D.IsSteady) :
    ∃ f : Nat → Outcome, ∀ i c o c', D.Returns i c o c' → o = f i := by
  classical
  refine ⟨fun i => if hi : ∃ o c c', D.Returns i c o c' then hi.choose else .proceed, ?_⟩
  intro i c o c' hr
  have hi : ∃ o c c', D.Returns i c o c' := ⟨o, c, c', hr⟩
  obtain ⟨k, k', hk⟩ := hi.choose_spec
  simp only [dif_pos hi]
  exact h i c o c' k _ k' hr hk

/-- A definition is steady if each of its steps has one outcome, whatever the context is. -/
theorem isSteady_of_constant (h : ∀ s ∈ D.steps, ∃ o, s.execute = fun c => .finish c o) :
    D.IsSteady := by
  rintro i c o c' k o' k' ⟨s, hs, hleaves⟩ ⟨s', hs', hleaves'⟩
  obtain rfl := Option.some.inj (hs.symm.trans hs')
  obtain ⟨o₀, hexecute⟩ := h s (List.mem_of_getElem? hs)
  rw [hexecute] at hleaves hleaves'
  obtain ⟨-, rfl⟩ := Behaviour.finish.inj (Behaviour.eq_of_leaves_finish hleaves)
  obtain ⟨-, rfl⟩ := Behaviour.finish.inj (Behaviour.eq_of_leaves_finish hleaves')
  rfl

namespace Path

theorem trans (h : D.Path f p is q) (h' : D.Path f q js r) : D.Path f p (is ++ js) r := by
  induction h with
  | here => exact h'
  | step hp hnext _ ih => exact .step hp hnext (ih h')

theorem snoc (h : D.Path f p is q) (hq : q < D.size) (hnext : D.next? q (f q) = some r) :
    D.Path f p (is ++ [q]) r :=
  h.trans (.step hq hnext .here)

/-- The last step of a path leads to its end. -/
theorem of_snoc (h : D.Path f p (is ++ [r]) q) :
    r < D.size ∧ D.next? r (f r) = some q ∧ D.Path f p is r := by
  induction is generalizing p with
  | nil =>
    cases h with
    | step hp hnext hs =>
      cases hs
      exact ⟨hp, hnext, .here⟩
  | cons i is ih =>
    cases h with
    | step hp hnext hs =>
      obtain ⟨hr, hlast, hpath⟩ := ih hs
      exact ⟨hr, hlast, .step hp hnext hpath⟩

/-- **Two paths from the same position agree for as long as both go on.** -/
theorem compare (h : D.Path f p is q) (h' : D.Path f p js r) :
    (∃ rest, js = is ++ rest ∧ D.Path f q rest r) ∨
      ∃ rest, is = js ++ rest ∧ D.Path f r rest q := by
  induction h generalizing js with
  | here => exact .inl ⟨js, rfl, h'⟩
  | step hp hnext hs ih =>
    cases h' with
    | here => exact .inr ⟨_, rfl, .step hp hnext hs⟩
    | step _ hnext' hs' =>
      obtain rfl := Option.some.inj (hnext.symm.trans hnext')
      obtain ⟨rest, rfl, hrest⟩ | ⟨rest, rfl, hrest⟩ := ih hs'
      · exact .inl ⟨rest, rfl, hrest⟩
      · exact .inr ⟨rest, rfl, hrest⟩

end Path

/-- Nothing follows from a position. -/
def IsLast (D : Definition) (f : Nat → Outcome) (p : Nat) : Prop :=
  D.size ≤ p ∨ D.next? p (f p) = none

theorem IsLast.path_eq (h : D.IsLast f p) (hs : D.Path f p is q) : is = [] ∧ q = p := by
  cases hs with
  | here => exact ⟨rfl, rfl⟩
  | step hp hnext _ =>
    rcases h with h | h
    · omega
    · rw [h] at hnext
      cases hnext

/-- The steps that have been executed stand at a position: the next one is to be executed there, or
the last one was. -/
def Stands (D : Definition) (f : Nat → Outcome) (p : Nat) (is : List Nat) (q : Nat) : Prop :=
  D.Path f p is q ∨ ∃ is', is = is' ++ [q] ∧ q < D.size ∧ D.Path f p is' q

/-- The steps that have been executed are all that there are up to the last position. -/
def Arrives (D : Definition) (f : Nat → Outcome) (p : Nat) (is : List Nat) (q : Nat) : Prop :=
  D.IsLast f q ∧ ∃ is', D.Path f p is' q ∧ is = is' ++ if q < D.size then [q] else []

namespace Stands

theorem start : D.Stands f p [] p := .inl .here

/-- Who stands at a position has come there. -/
theorem path (h : D.Stands f p is q) :
    ∃ is', D.Path f p is' q ∧ (is = is' ∨ is = is' ++ [q] ∧ q < D.size) := by
  obtain h | ⟨is', rfl, hq, h⟩ := h
  · exact ⟨is, h, .inl rfl⟩
  · exact ⟨is', h, .inr ⟨rfl, hq⟩⟩

/-- The step at the position was executed last. -/
theorem of_getLast (h : D.Stands f p is q) (hlast : is.getLast? = some q) :
    q < D.size ∧ ∃ is', is = is' ++ [q] ∧ D.Path f p is' q := by
  obtain ⟨is', rfl⟩ := List.getLast?_eq_some_iff.1 hlast
  obtain h | ⟨js, heq, hq, h⟩ := h
  · obtain ⟨hq, -, hpath⟩ := h.of_snoc
    exact ⟨hq, is', rfl, hpath⟩
  · obtain rfl := List.append_cancel_right heq
    exact ⟨hq, _, rfl, h⟩

/-- The step at the position is yet to be executed. -/
theorem of_getLast_ne (h : D.Stands f p is q) (hlast : is.getLast? ≠ some q) : D.Path f p is q := by
  obtain h | ⟨is', rfl, -, -⟩ := h
  · exact h
  · exact absurd List.getLast?_concat hlast

/-- **Of what has been executed from the same position, one is the beginning of the other.** -/
theorem compare (h : D.Stands f p is q) (h' : D.Stands f p js r) : is <+: js ∨ js <+: is := by
  -- One of the two has come further than the other.
  have further : ∀ {is js is' rest : List Nat} {q r : Nat},
      (is = is' ∨ is = is' ++ [q] ∧ q < D.size) →
      D.Path f q rest r → (js = is' ++ rest ∨ js = is' ++ rest ++ [r] ∧ r < D.size) →
      is <+: js ∨ js <+: is := by
    intro is js is' rest q r his hrest hjs
    have hbegin : is' ++ rest <+: js := by
      obtain rfl | ⟨rfl, -⟩ := hjs
      · exact List.prefix_refl _
      · exact List.prefix_append _ _
    obtain rfl | ⟨rfl, -⟩ := his
    · exact .inl ((List.prefix_append _ _).trans hbegin)
    · cases hrest with
      | here =>
        rw [List.append_nil] at hjs
        obtain rfl | ⟨rfl, -⟩ := hjs
        · exact .inr (List.prefix_append _ _)
        · exact .inl (List.prefix_refl _)
      | step _ _ _ =>
        rw [List.append_cons] at hbegin
        exact .inl ((List.prefix_append _ _).trans hbegin)
  obtain ⟨is', hpath, his⟩ := h.path
  obtain ⟨js', hpath', hjs⟩ := h'.path
  obtain ⟨rest, rfl, hrest⟩ | ⟨rest, rfl, hrest⟩ := hpath.compare hpath'
  · exact further his hrest hjs
  · exact (further hjs hrest his).symm

/-- Nothing more is executed than up to the last position. -/
theorem prefix_arrives (h : D.Stands f p is q) (h' : D.Arrives f p js r) : is <+: js := by
  obtain ⟨is', hpath, his⟩ := h.path
  obtain ⟨hlast, js', hpath', rfl⟩ := h'
  obtain ⟨rest, rfl, hrest⟩ | ⟨rest, rfl, hrest⟩ := hpath.compare hpath'
  · cases hrest with
    | here =>
      obtain rfl | ⟨rfl, hq⟩ := his
      · rw [List.append_nil]
        exact List.prefix_append _ _
      · exact ⟨[], by simp [hq]⟩
    | @step _ _ _ rest _ _ _ =>
      have hbegin : is' ++ q :: rest <+: is' ++ q :: rest ++ if r < D.size then [r] else [] :=
        List.prefix_append _ _
      obtain rfl | ⟨rfl, -⟩ := his
      · exact (List.prefix_append _ _).trans hbegin
      · have hnext : is' ++ [q] <+: is' ++ q :: rest :=
          (List.prefix_append_right_inj _).2 (List.prefix_append [q] rest)
        exact hnext.trans hbegin
  · obtain ⟨rfl, rfl⟩ := hlast.path_eq hrest
    obtain rfl | ⟨rfl, hq⟩ := his
    · rw [List.append_nil]
      exact List.prefix_append _ _
    · exact ⟨[], by simp [hq]⟩

end Stands

namespace Arrives

theorem stands (h : D.Arrives f p is q) : D.Stands f p is q := by
  obtain ⟨-, is', hpath, rfl⟩ := h
  split
  · rename_i hq
    exact .inr ⟨is', rfl, hq, hpath⟩
  · rw [List.append_nil]
    exact .inl hpath

/-- **There is one way only to the last position.** -/
theorem unique (h : D.Arrives f p is q) (h' : D.Arrives f p js r) : is = js ∧ q = r := by
  refine ⟨(h.stands.prefix_arrives h').eq_of_length_le
    (h'.stands.prefix_arrives h).length_le, ?_⟩
  obtain ⟨hlast, is', hpath, -⟩ := h
  obtain ⟨hlast', js', hpath', -⟩ := h'
  obtain ⟨rest, -, hrest⟩ | ⟨rest, -, hrest⟩ := hpath.compare hpath'
  · exact (hlast.path_eq hrest).2.symm
  · exact (hlast'.path_eq hrest).2

end Arrives

end Definition

/-! ## The paths of chains -/

/-- The index of the step that is executed. -/
def Deed.index? : Deed → Option Nat
  | .executed index => some index
  | _ => none

/-- The indices of the steps that are executed, in their order. -/
def Deed.executions (l : List Deed) : List Nat := l.filterMap Deed.index?

theorem Deed.executions_append (l l' : List Deed) :
    Deed.executions (l ++ l') = Deed.executions l ++ Deed.executions l' :=
  List.filterMap_append

/-- No effect executes a step. -/
@[simp] theorem Deed.executions_map_deed (c : Chain) (es : List Effect) :
    Deed.executions (es.map (Effect.deed c)) = [] := by
  induction es with
  | nil => rfl
  | cons e es ih => cases e <;> exact ih

/-- No turn executes a step. -/
@[simp] theorem Deed.executions_deeds (turn : Turn) : Deed.executions turn.deeds = [] := by
  cases turn <;> rfl

namespace Plan

variable {D : Definition} {c : Context} {i j : Nat} {now : Instant} {o : Outcome}
  {done es : List Effect} {turn : Turn}

/-- The next round starts where the outcome of the step leads to. -/
theorem next_of_ofOutcome (h : Plan.ofOutcome D c i now o = .ok ⟨es, turn⟩)
    (hnext : turn.next? = some j) : D.next? i o = some j := by
  cases o with
  | proceed => cases h; cases hnext; rfl
  | delay duration => cases h; cases hnext; rfl
  | wait message => cases h; cases hnext
  | failure cause => cases h; cases hnext
  | jump label =>
    obtain ⟨target, hlabel, hplan⟩ := Plan.jump_cases h
    cases hplan
    cases hnext
    exact hlabel

/-- After some of the effects, the position is still that of the step, or the one that its outcome
leads to. -/
theorem position_of_ofOutcome (h : Plan.ofOutcome D c i now o = .ok ⟨done ++ es, turn⟩) :
    Effect.position i done = i ∨ D.next? i o = some (Effect.position i done) := by
  cases done with
  | nil => exact .inl rfl
  | cons e done =>
    have hrest : ∀ p, Effect.position p done = p := Effect.position_of_not_mem (save_not_mem h)
    cases e with
    | save n =>
      have hplan : Plan.ofOutcome D c i now o = .ok ⟨[] ++ .save n :: (done ++ es), turn⟩ := h
      obtain ⟨-, hsaved⟩ := Plan.save_first hplan
      show Effect.position n done = i ∨ D.next? i o = some (Effect.position n done)
      rw [hrest]
      exact D.next_of_saved hsaved
    | publish news => exact .inl (hrest i)
    | settle s => exact .inl (hrest i)

end Plan

variable {D : Definition} {f : Nat → Outcome} {c : Chain} {φ : Phase} {p p₀ i j : Nat}
  {T r : List Deed}

/-- **Complete rounds are a path.** -/
theorem Trail.path (hf : ∀ i c o c', D.Returns i c o c' → o = f i) (h : Trail D p T j) :
    D.Path f p (Deed.executions T) j := by
  induction h with
  | start => exact .here
  | @round T i j o now es turn context c h hr hplan hnext ih =>
    have hexecutions : Deed.executions
        (T ++ .executed i :: .returned i o :: (es.map (Effect.deed c) ++ turn.deeds)) =
        Deed.executions T ++ [i] := by
      have hround : Deed.executions (es.map (Effect.deed c) ++ turn.deeds) = [] := by
        rw [Deed.executions_append, Deed.executions_map_deed, Deed.executions_deeds,
          List.append_nil]
      rw [Deed.executions_append]
      exact congrArg (Deed.executions T ++ i :: ·) hround
    have hleads : D.next? i (f i) = some j := hf i context o c.context hr ▸
      Plan.next_of_ofOutcome hplan hnext
    rw [hexecutions]
    exact ih.snoc hr.lt_size hleads

/-- A round executes the step at its index, and moves to where its outcome leads to. -/
theorem Round.executions (hf : ∀ i c o c', D.Returns i c o c' → o = f i)
    (h : Round D i r c φ p) :
    (Deed.executions r = [] ∧ p = i) ∨
      (Deed.executions r = [i] ∧ i < D.size ∧ (p = i ∨ D.next? i (f i) = some p)) := by
  -- What a round ends with executes nothing.
  have snoc : ∀ {r : List Deed} {d : Deed}, d.index? = none →
      Deed.executions (r ++ [d]) = Deed.executions r := by
    intro r d hd
    rw [Deed.executions_append, Deed.executions, Deed.executions, List.filterMap_cons_none hd]
    exact List.append_nil _
  induction h with
  | within hi => exact .inr ⟨rfl, hi, .inl rfl⟩
  | @acting c o now done es turn context hr hplan =>
    refine .inr ⟨congrArg (i :: ·) (Deed.executions_map_deed c done), hr.lt_size, ?_⟩
    rw [← hf i context o c.context hr]
    exact Plan.position_of_ofOutcome hplan
  | @ending c done es turn hi hplan =>
    refine .inl ⟨Deed.executions_map_deed c done, Effect.position_of_not_mem ?_ i⟩
    exact fun n hn => Plan.save_not_mem_atEnd hplan n (List.mem_append_left _ hn)
  | aborted hi => exact .inr ⟨rfl, hi, .inl rfl⟩
  | misjumped hr hplan => exact .inr ⟨rfl, hr.lt_size, .inl rfl⟩
  | unsaved _ ih => rw [snoc rfl]; exact ih
  | refused _ ih => rw [snoc rfl]; exact ih
  | unscheduled _ ih => rw [snoc rfl]; exact ih
  | _ => exact .inl ⟨rfl, rfl⟩

/-- **What a chain has executed since it started stands at the position.** -/
theorem Recalls.stands (hf : ∀ i c o c', D.Returns i c o c' → o = f i)
    (h : Recalls D p₀ T c φ p) : D.Stands f p₀ (Deed.executions T) p := by
  obtain ⟨T₀, i, r, rfl, htrail, hround⟩ := h
  have hpath := htrail.path hf
  rw [Deed.executions_append]
  obtain ⟨hnone, rfl⟩ | ⟨hone, hi, rfl | hnext⟩ := hround.executions hf
  · rw [hnone, List.append_nil]
    exact .inl hpath
  · rw [hone]
    exact .inr ⟨_, rfl, hi, hpath⟩
  · rw [hone]
    exact .inl (hpath.snoc hi hnext)

end DurableFlow
