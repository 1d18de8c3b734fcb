import DurableFlow.Plan

/-!
# Plans of outcomes

What the plan of a step that has returned looks like, read from an effect in the midst of it or from
the turn at its end: a position is saved before anything else is done (`Plan.save_first`), there is
one thing to publish (`Plan.publish_cases`), a caller is told last or by a failure
(`Plan.settle_cases`), and a chain stops if its step has asked to wait or has failed
(`Plan.stop_cases`). Nothing else looks into the plans.
-/

namespace DurableFlow

/-- Where the next round starts after a turn. -/
def Turn.next? : Turn → Option Nat
  | .arrive index => some index
  | .suspend next _ => some next
  | .stop _ => none

/-- The position after some effects. -/
def Effect.position (p : Nat) : List Effect → Nat
  | [] => p
  | .save next :: es => position next es
  | _ :: es => position p es

/-- The position that is saved once the step at an index has returned: none after a failure, or if
the label of a jump is not known. -/
def Definition.saved? (d : Definition) (i : Nat) : Outcome → Option Nat
  | .proceed | .delay _ => some (i + 1)
  | .wait _ => some i
  | .jump label => d.labelIndex? label
  | .failure _ => none

theorem Effect.position_append (p : Nat) (es es' : List Effect) :
    Effect.position p (es ++ es') = Effect.position (Effect.position p es) es' := by
  induction es generalizing p with
  | nil => rfl
  | cons e es ih => cases e <;> exact ih _

theorem Effect.position_of_not_mem {es : List Effect} (h : ∀ n, .save n ∉ es) (p : Nat) :
    Effect.position p es = p := by
  induction es with
  | nil => rfl
  | cons e es ih =>
    have hes := ih fun n hn => h n (List.mem_cons_of_mem _ hn)
    cases e with
    | save n => exact absurd List.mem_cons_self (h n)
    | publish news => exact hes
    | settle s => exact hes

namespace Plan

variable {d : Definition} {c : Context} {i j n : Nat} {now : Instant} {o : Outcome} {news : News}
  {s : Settlement} {result : RunResult} {plan : Plan} {done es : List Effect} {turn : Turn}

/-! ## Plans as wholes -/

/-- A jump saves the place of its label and goes on there. -/
theorem jump_cases {label : String} (h : ofOutcome d c i now (.jump label) = .ok plan) :
    ∃ target, d.labelIndex? label = some target ∧ plan = ⟨[.save target], .arrive target⟩ := by
  cases hlabel : d.labelIndex? label with
  | some target =>
    simp only [ofOutcome, hlabel] at h
    exact ⟨target, rfl, (Except.ok.inj h).symm⟩
  | none =>
    simp only [ofOutcome, hlabel] at h
    cases h

/-- Nothing but a jump to a label that is not known has no plan. -/
theorem error_cases {fault : Fault} (h : ofOutcome d c i now o = .error fault) :
    ∃ label, o = .jump label ∧ d.labelIndex? label = none ∧ fault = .unknownLabel d.name label := by
  cases o with
  | jump label =>
    cases hlabel : d.labelIndex? label with
    | some target =>
      simp only [ofOutcome, hlabel] at h
      cases h
    | none =>
      simp only [ofOutcome, hlabel] at h
      exact ⟨label, rfl, hlabel, (Except.error.inj h).symm⟩
  | _ => cases h

/-- A chain stops once its step has asked to wait or has failed. -/
theorem stop_cases (h : ofOutcome d c i now o = .ok ⟨es, .stop result⟩) :
    (∃ message, o = .wait message ∧ result = resultOf c .waiting ∧
        es = [.save i, .publish (.waiting i message), .settle (.ok result)]) ∨
      ∃ cause, o = .failure cause ∧ result = resultOf c .failed ∧
        es = [.settle (.error (.stepFailed cause)), .publish (.failed i cause)] := by
  cases o with
  | wait message => cases h; exact .inl ⟨message, rfl, rfl, rfl⟩
  | failure cause => cases h; exact .inr ⟨cause, rfl, rfl, rfl⟩
  | proceed => cases h
  | delay duration => cases h
  | jump label =>
    obtain ⟨target, -, hplan⟩ := jump_cases h
    cases hplan

/-- A chain is laid to rest once its step has asked for a delay. -/
theorem suspend_cases {next : Nat} {due : Instant}
    (h : ofOutcome d c i now o = .ok ⟨es, .suspend next due⟩) :
    ∃ duration, o = .delay duration ∧ next = i + 1 ∧
      es = [.save next, .publish (.delayed next due)] := by
  cases o with
  | delay duration => cases h; exact ⟨duration, rfl, rfl, rfl⟩
  | jump label =>
    obtain ⟨target, -, hplan⟩ := jump_cases h
    cases hplan
  | _ => cases h

/-- A chain that goes on saves first where it does, and saves nothing else. -/
theorem save_of_next (h : ofOutcome d c i now o = .ok ⟨es, turn⟩) (hnext : turn.next? = some j) :
    ∃ es', es = .save j :: es' ∧ ∀ n, .save n ∉ es' := by
  cases o with
  | proceed => cases h; cases hnext; exact ⟨[], rfl, by simp⟩
  | delay duration => cases h; cases hnext; exact ⟨[_], rfl, by simp⟩
  | wait message => cases h; cases hnext
  | failure cause => cases h; cases hnext
  | jump label =>
    obtain ⟨target, -, hplan⟩ := jump_cases h
    cases hplan
    cases hnext
    exact ⟨[], rfl, by simp⟩

/-- The next round starts at the position that was saved. -/
theorem position_of_next (h : ofOutcome d c i now o = .ok ⟨es, turn⟩)
    (hnext : turn.next? = some j) : Effect.position i es = j := by
  obtain ⟨es', rfl, hes⟩ := save_of_next h hnext
  exact Effect.position_of_not_mem hes j

/-! ## Effects in the midst of a plan -/

/-- Nothing is done before the position is saved, and it is saved as the outcome says. -/
theorem save_first (h : ofOutcome d c i now o = .ok ⟨done ++ .save n :: es, turn⟩) :
    done = [] ∧ d.saved? i o = some n := by
  -- In every plan, only the first effect may be a save.
  have first : ∀ {e : Effect} {es' : List Effect}, (∀ m, .save m ∉ es') →
      e :: es' = done ++ .save n :: es → done = [] ∧ e = .save n := by
    intro e es' hes heq
    cases done with
    | nil => exact ⟨rfl, (List.cons.inj heq).1⟩
    | cons e' done =>
      refine absurd ?_ (hes n)
      rw [(List.cons.inj heq).2]
      exact List.mem_append_right _ List.mem_cons_self
  cases o with
  | proceed =>
    obtain ⟨hes, -⟩ := Plan.mk.inj (Except.ok.inj h)
    obtain ⟨hdone, hsave⟩ := first (by simp) hes
    exact ⟨hdone, by cases hsave; rfl⟩
  | delay duration =>
    obtain ⟨hes, -⟩ := Plan.mk.inj (Except.ok.inj h)
    obtain ⟨hdone, hsave⟩ := first (by simp) hes
    exact ⟨hdone, by cases hsave; rfl⟩
  | wait message =>
    obtain ⟨hes, -⟩ := Plan.mk.inj (Except.ok.inj h)
    obtain ⟨hdone, hsave⟩ := first (by simp) hes
    exact ⟨hdone, by cases hsave; rfl⟩
  | failure cause =>
    obtain ⟨hes, -⟩ := Plan.mk.inj (Except.ok.inj h)
    obtain ⟨-, hsave⟩ := first (by simp) hes
    cases hsave
  | jump label =>
    obtain ⟨target, hlabel, hplan⟩ := jump_cases h
    obtain ⟨hes, -⟩ := Plan.mk.inj hplan
    obtain ⟨hdone, hsave⟩ := first (by simp) hes.symm
    exact ⟨hdone, by cases hsave; exact hlabel⟩

/-- A position is saved by the first effect only. -/
theorem save_not_mem {e : Effect} (h : ofOutcome d c i now o = .ok ⟨e :: done ++ es, turn⟩) :
    ∀ n, .save n ∉ done := by
  intro n hn
  obtain ⟨before, rest, rfl⟩ := List.append_of_mem hn
  have hplan : ofOutcome d c i now o = .ok ⟨(e :: before) ++ .save n :: (rest ++ es), turn⟩ := by
    simpa using h
  exact List.cons_ne_nil _ _ (save_first hplan).1

/-- What is published after a step has returned, and what has been done before. -/
theorem publish_cases (h : ofOutcome d c i now o = .ok ⟨done ++ .publish news :: es, turn⟩) :
    (∃ duration due, o = .delay duration ∧ news = .delayed (i + 1) due ∧
        done = [.save (i + 1)] ∧ turn = .suspend (i + 1) due) ∨
      (∃ message, o = .wait message ∧ news = .waiting i message ∧ done = [.save i] ∧
        turn.next? = none) ∨
      ∃ cause s, o = .failure cause ∧ news = .failed i cause ∧ done = [.settle s] ∧
        turn.next? = none := by
  -- Each plan publishes once, as its second effect.
  have second : ∀ {e e' : Effect} {es' : List Effect},
      e :: e' :: es' = done ++ .publish news :: es → (∀ n, e ≠ .publish n) →
      (∀ n, .publish n ∉ es') → done = [e] ∧ e' = .publish news := by
    intro e e' es' heq he hes
    rcases done with _ | ⟨e₁, _ | ⟨e₂, done⟩⟩
    · exact absurd (List.cons.inj heq).1 (he news)
    · obtain ⟨he₁, heq⟩ := List.cons.inj heq
      rw [he₁]
      exact ⟨rfl, (List.cons.inj heq).1⟩
    · obtain ⟨-, heq⟩ := List.cons.inj heq
      refine absurd ?_ (hes news)
      rw [(List.cons.inj heq).2]
      exact List.mem_append_right _ List.mem_cons_self
  -- A plan that only saves a position publishes nothing.
  have saves : ∀ {target}, [.save target] ≠ done ++ .publish news :: es := by
    intro target heq
    have hmem : Effect.publish news ∈ [Effect.save target] := by
      rw [heq]
      exact List.mem_append_right _ List.mem_cons_self
    simp at hmem
  cases o with
  | proceed =>
    obtain ⟨hes, -⟩ := Plan.mk.inj (Except.ok.inj h)
    exact absurd hes saves
  | delay duration =>
    obtain ⟨hes, hturn⟩ := Plan.mk.inj (Except.ok.inj h)
    obtain ⟨hdone, hnews⟩ := second hes (by simp) (by simp)
    exact .inl ⟨duration, _, rfl, (Effect.publish.inj hnews).symm, hdone, hturn.symm⟩
  | wait message =>
    obtain ⟨hes, rfl⟩ := Plan.mk.inj (Except.ok.inj h)
    obtain ⟨hdone, hnews⟩ := second hes (by simp) (by simp)
    exact .inr (.inl ⟨message, rfl, (Effect.publish.inj hnews).symm, hdone, rfl⟩)
  | failure cause =>
    obtain ⟨hes, rfl⟩ := Plan.mk.inj (Except.ok.inj h)
    obtain ⟨hdone, hnews⟩ := second hes (by simp) (by simp)
    exact .inr (.inr ⟨cause, _, rfl, (Effect.publish.inj hnews).symm, hdone, rfl⟩)
  | jump label =>
    obtain ⟨target, -, hplan⟩ := jump_cases h
    obtain ⟨hes, -⟩ := Plan.mk.inj hplan
    exact absurd hes.symm saves

/-- A caller is told once a step has asked to wait or has failed; then the chain stops. -/
theorem settle_cases (h : ofOutcome d c i now o = .ok ⟨done ++ .settle s :: es, turn⟩) :
    (∃ result, turn = .stop result) ∧
      ((∃ message, o = .wait message ∧ s = .ok (resultOf c .waiting) ∧
          done = [.save i, .publish (.waiting i message)]) ∨
        ∃ cause, o = .failure cause ∧ s = .error (.stepFailed cause) ∧ done = []) := by
  -- A plan without an effect of this kind tells nobody.
  have silent : ∀ {es' : List Effect}, (∀ s, .settle s ∉ es') → es' ≠ done ++ .settle s :: es := by
    rintro es' hes rfl
    exact hes s (List.mem_append_right _ List.mem_cons_self)
  cases o with
  | proceed =>
    obtain ⟨hes, -⟩ := Plan.mk.inj (Except.ok.inj h)
    exact absurd hes (silent (by simp))
  | delay duration =>
    obtain ⟨hes, -⟩ := Plan.mk.inj (Except.ok.inj h)
    exact absurd hes (silent (by simp))
  | wait message =>
    obtain ⟨hes, rfl⟩ := Plan.mk.inj (Except.ok.inj h)
    refine ⟨⟨_, rfl⟩, .inl ⟨message, rfl, ?_⟩⟩
    rcases done with _ | ⟨e₁, _ | ⟨e₂, _ | ⟨e₃, done⟩⟩⟩
    · cases hes
    · cases hes
    · cases hes
      exact ⟨rfl, rfl⟩
    · simp at hes
  | failure cause =>
    obtain ⟨hes, rfl⟩ := Plan.mk.inj (Except.ok.inj h)
    refine ⟨⟨_, rfl⟩, .inr ⟨cause, rfl, ?_⟩⟩
    rcases done with _ | ⟨e₁, _ | ⟨e₂, done⟩⟩
    · cases hes
      exact ⟨rfl, rfl⟩
    · cases hes
    · simp at hes
  | jump label =>
    obtain ⟨target, -, hplan⟩ := jump_cases h
    obtain ⟨hes, -⟩ := Plan.mk.inj hplan
    exact absurd hes.symm (silent (by simp))

/-! ## The end -/

theorem atEnd_next (h : atEnd c = ⟨es, turn⟩) : turn.next? = none := by
  cases h
  rfl

theorem save_not_mem_atEnd (h : atEnd c = ⟨es, turn⟩) : ∀ n, .save n ∉ es := by
  cases h
  simp

theorem publish_atEnd (h : atEnd c = ⟨done ++ .publish news :: es, turn⟩) :
    news = .completed ∧ done = [] := by
  obtain ⟨hes, -⟩ := Plan.mk.inj h
  rcases done with _ | ⟨e₁, _ | ⟨e₂, done⟩⟩
  · exact ⟨(Effect.publish.inj (List.cons.inj hes).1).symm, rfl⟩
  · cases hes
  · simp at hes

theorem settle_atEnd (h : atEnd c = ⟨done ++ .settle s :: es, turn⟩) :
    (∃ result, turn = .stop result) ∧ s = .ok ⟨c.inst, .completed, c.output⟩ ∧
      done = [.publish .completed] := by
  obtain ⟨hes, rfl⟩ := Plan.mk.inj h
  rcases done with _ | ⟨e₁, _ | ⟨e₂, done⟩⟩
  · cases hes
  · cases hes
    exact ⟨⟨_, rfl⟩, rfl, rfl⟩
  · simp at hes

end Plan

end DurableFlow
