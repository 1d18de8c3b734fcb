import DurableFlow.Proofs.Runs.RunsToEnds

/-!
# Progress of a run

What comes of a chain whose steps go on: one step after the other is executed, returns and is put on
record, and then the chain completes.

Main statement: a run of steps that go on does one after the other, and completes
(`Shifts.proceeds`).
-/

namespace DurableFlow

/-- The deeds of a number of steps that go on, one after the other. -/
def Deed.proceeding : Nat → Nat → List Deed
  | _, 0 => []
  | i, n + 1 => .executed i :: .returned i .proceed :: .saved (i + 1) :: proceeding (i + 1) n

theorem Deed.mem_proceeding {d : Deed} {i n : Nat} (h : d ∈ proceeding i n) :
    ∃ j, d = .executed j ∨ d = .returned j .proceed ∨ d = .saved j := by
  induction n generalizing i with
  | zero => cases h
  | succ n ih =>
    simp only [proceeding, List.mem_cons] at h
    obtain rfl | rfl | rfl | h := h
    · exact ⟨i, .inl rfl⟩
    · exact ⟨i, .inr (.inl rfl)⟩
    · exact ⟨i + 1, .inr (.inr rfl)⟩
    · exact ih h

theorem Deed.returned_mem_proceeding {i j n : Nat} (h : .executed j ∈ proceeding i n) :
    .returned j .proceed ∈ proceeding i n := by
  induction n generalizing i with
  | zero => cases h
  | succ n ih =>
    simp only [proceeding, List.mem_cons, Deed.executed.injEq, reduceCtorEq, false_or] at h ⊢
    obtain rfl | h := h
    · exact .inl rfl
    · exact .inr (ih h)

/-- The steps from an index on come to their ends, and go on. -/
def Deed.Proceeds (i : Nat) (ds : List Deed) : Prop :=
  ∀ j, i ≤ j → (∀ o, .returned j o ∈ ds → o = .proceed) ∧
    (.executed j ∈ ds → ∃ o, .returned j o ∈ ds)

/-- What the later steps do, after some deeds of the earlier ones. -/
theorem Deed.Proceeds.later {i j : Nat} {T ds : List Deed} (h : Deed.Proceeds i (T ++ ds))
    (hij : i ≤ j) (hT : ∀ k o, .returned k o ∈ T → k < j) : Deed.Proceeds j ds := by
  intro k hk
  obtain ⟨hreturned, hexecuted⟩ := h k (hij.trans hk)
  refine ⟨fun o ho => hreturned o (List.mem_append_right _ ho), fun hk' => ?_⟩
  obtain ⟨o, ho⟩ := hexecuted (List.mem_append_right _ hk')
  refine ⟨o, (List.mem_append.1 ho).resolve_left fun hbefore => ?_⟩
  exact absurd (hT k o hbefore) (Nat.not_lt.2 hk)

namespace Shifts

variable {D : Definition} {x : String} {st st' st'' : Option (Chain × Phase)} {p p' p'' : Nat}
  {l l' : List (Chain × Deed)} {k : CompletionId} {c : Chain} {φ : Phase} {i : Nat}

section

variable (hcalm : ∀ d ∈ l, d.2.isMishap = false)
  (hstill : ∀ c φ, st' = some (c, φ) → φ.IsStill)

include hcalm hstill

/-- A chain that was stopped by a cancellation does not come to rest. -/
theorem not_cancelled (h : Shifts D x (some (c, .halting .cancelled)) p l st' p') : False := by
  obtain ⟨-, rfl, -⟩ | ⟨ds, l', st₁, p₁, rfl, hs, hne, -⟩ := h.head
  · exact hstill _ _ rfl
  · cases hs with
    | still => exact hne ⟨rfl, rfl⟩
    | go hgo => cases hgo
    | ended hd => cases hd <;> cases hcalm _ List.mem_cons_self

/-- A chain that has done what it had to arrives. -/
theorem arrives (h : Shifts D x (some (c, .acting ⟨[], .arrive i⟩)) p l st' p') :
    Shifts D x (some (c, .entering i)) p l st' p' := by
  obtain ⟨-, rfl, -⟩ | ⟨ds, l', st₁, p₁, rfl, hs, hne, h'⟩ := h.head
  · exact (hstill _ _ rfl).elim
  · cases hs with
    | still => exact absurd ⟨rfl, rfl⟩ hne
    | go hgo =>
      cases hgo
      exact h'
    | ended hd => cases hd; cases hcalm _ List.mem_cons_self

/-- A step that goes on saves the position behind it, and the next one comes. -/
theorem advances (h : Shifts D x (some (c, .acting ⟨[.save i], .arrive i⟩)) p l st' p') :
    ∃ c' l', l = (c, .saved i) :: l' ∧ c'.context = c.context ∧ c'.definition = c.definition ∧
      Shifts D x (some (c', .entering i)) i l' st' p' := by
  obtain ⟨c', l', rfl, hcontext, hdefinition, h'⟩ := h.performed_one hcalm hstill
  exact ⟨c', l', rfl, hcontext, hdefinition,
    h'.arrives (fun d hd => hcalm d (List.mem_cons_of_mem _ hd)) hstill⟩

/-- A chain that is before a step executes it. -/
theorem executes (h : Shifts D x (some (c, .entering i)) p l st' p')
    (hi : i < c.definition.size) :
    ∃ l', l = (c, .executed i) :: l' ∧ Shifts D x (some (c, .within i)) p l' st' p' := by
  obtain ⟨-, rfl, -⟩ | ⟨ds, l', st₁, p₁, rfl, hs, hne, h'⟩ := h.head
  · exact (hstill _ _ rfl).elim
  · cases hs with
    | still => exact absurd ⟨rfl, rfl⟩ hne
    | go hgo =>
      cases hgo with
      | execute => exact ⟨l', rfl, h'⟩
      | pass hsize => exact absurd hi (Nat.not_lt.2 hsize)
      | withdraw => exact (h'.not_cancelled hcalm hstill).elim
    | ended hd => cases hd; cases hcalm _ List.mem_cons_self

/-- A step that returns is the next thing that is done. -/
theorem returns (honce : ∀ d ∈ l, d.2.isStart = false)
    (h : Shifts D x (some (c, .within i)) p l st' p') {o : Outcome}
    (hmem : .returned i o ∈ l.map Prod.snd)
    (ho : ∀ o', .returned i o' ∈ l.map Prod.snd → o' = .proceed) :
    ∃ context l', l = (c, .returned i .proceed) :: l' ∧
      c.definition.Returns i c.context .proceed context ∧
      Shifts D x (some ({ c with context }, .acting ⟨[.save (i + 1)], .arrive (i + 1)⟩)) p l' st'
        p' := by
  obtain ⟨rfl, -, -⟩ | ⟨ds, l', st₁, p₁, rfl, hs, hne, h'⟩ := h.head
  · cases hmem
  · cases hs with
    | still => exact absurd ⟨rfl, rfl⟩ hne
    | go hgo =>
      cases hgo with
      | @heed _ o' _ _ _ hr hplan =>
        obtain rfl := ho o' List.mem_cons_self
        cases hplan
        exact ⟨_, l', rfl, hr, h'⟩
      | @misjump _ o' _ _ _ hr hplan =>
        obtain rfl := ho o' List.mem_cons_self
        cases hplan
      | abort => exact (h'.not_cancelled hcalm hstill).elim
    | ended hd =>
      cases hd with
      | panic =>
        obtain ⟨rfl, -⟩ := h'.of_none fun d hd => honce d (List.mem_append_right _ hd)
        simp at hmem
      | lose => cases hcalm _ List.mem_cons_self

end

/-- **A run of steps that go on does one after the other, and completes.** -/
theorem proceeds {n : Nat} (h : Shifts D x (some (c, .entering i)) i l st' p')
    (hcalm : ∀ d ∈ l, d.2.isMishap = false) (hstill : ∀ c φ, st' = some (c, φ) → φ.IsStill)
    (honce : ∀ d ∈ l, d.2.isStart = false) (hD : c.definition = D) (hloyal : D.IsLoyal)
    (hx : c.inst = x) (hn : i + n = D.size) (hproceeds : Deed.Proceeds i (l.map Prod.snd)) :
    ∃ output, l.map Prod.snd = Deed.proceeding i n ++ Deed.completing x D.name output ∧
      st' = none ∧ p' = D.size := by
  induction n generalizing c i l with
  | zero =>
    obtain ⟨-, rfl, -⟩ | ⟨ds, l', st₁, p₁, rfl, hs, hne, h'⟩ := h.head
    · exact (hstill _ _ rfl).elim
    have hcalm' : ∀ d ∈ l', d.2.isMishap = false := fun d hd => hcalm d (List.mem_append_right _ hd)
    cases hs with
    | still => exact absurd ⟨rfl, rfl⟩ hne
    | go hgo =>
      cases hgo with
      | execute hi => rw [hD] at hi; omega
      | pass hsize =>
        obtain ⟨hlast, hnone, hposition⟩ :=
          h'.finale hcalm' hstill fun d hd => honce d (List.mem_append_right _ hd)
        refine ⟨c.context.output, ?_, hnone, hposition.trans hn⟩
        rw [List.map_append, hlast, ← hx, ← hD]
        rfl
      | withdraw => exact (h'.not_cancelled hcalm' hstill).elim
    | ended hd => cases hd; cases hcalm _ List.mem_cons_self
  | succ n ih =>
    obtain ⟨l₁, rfl, h₁⟩ := h.executes hcalm hstill (by rw [hD]; omega)
    obtain ⟨hreturned, hexecuted⟩ := hproceeds i le_rfl
    obtain ⟨o, ho⟩ := hexecuted List.mem_cons_self
    have hmem : .returned i o ∈ l₁.map Prod.snd := by
      rcases List.mem_cons.1 ho with heq | hmem
      · cases heq
      · exact hmem
    have hcalm₁ := (List.forall_mem_cons.1 hcalm).2
    have honce₁ := (List.forall_mem_cons.1 honce).2
    obtain ⟨context, l₂, rfl, hr, h₂⟩ := h₁.returns hcalm₁ hstill honce₁ hmem
      fun o' ho' => hreturned o' (List.mem_cons_of_mem _ ho')
    have hcalm₂ := (List.forall_mem_cons.1 hcalm₁).2
    obtain ⟨c', l₃, rfl, hcontext, hdefinition, h₃⟩ := h₂.advances hcalm₂ hstill
    have hx' : c'.inst = x := by
      rw [Chain.inst, hcontext]
      exact (hD ▸ hloyal : c.definition.IsLoyal).inst_eq hr |>.trans hx
    have hlater : Deed.Proceeds (i + 1) (l₃.map Prod.snd) :=
      hproceeds.later (T := [_, _, _]) (Nat.le_succ i) (by simp)
    obtain ⟨output, hl₃, hst', hp'⟩ := ih h₃ (List.forall_mem_cons.1 hcalm₂).2
      (List.forall_mem_cons.1 (List.forall_mem_cons.1 honce₁).2).2 (hdefinition.trans hD) hx'
      (by omega) hlater
    refine ⟨output, ?_, hst', hp'⟩
    simp only [List.map_cons, hl₃, Deed.proceeding, List.cons_append]

end Shifts

end DurableFlow
