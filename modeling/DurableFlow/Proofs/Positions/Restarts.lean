import DurableFlow.Proofs.Publications.Announcements
import DurableFlow.Proofs.Histories.Paths
import DurableFlow.Proofs.Positions.PositionInvariant

/-!
# Restarts

If the outcomes of the steps of a definition depend on the steps only, then it does not matter where
an instance is interrupted and started again: but for a step that is executed again after a restart,
the steps that are executed are those of a run that is never interrupted, and if both come to an
end, they come to the same end at the same position.

Main statement: `Engine.Course.restart_equivalent`.
-/

namespace DurableFlow

namespace Deed

/-- The indices of the steps that have been executed so far, and whether a chain has started since
the last of them. A step is not counted again if a chain executes first what was executed last. -/
def visit : List Nat × Bool → Deed → List Nat × Bool
  | (is, _), .started _ => (is, true)
  | (is, restarted), .executed i =>
    if restarted && is.getLast? == some i then (is, false) else (is ++ [i], false)
  | s, _ => s

/-- The indices of the steps that are executed, but for those that are executed again because of an
interruption. -/
def visits (l : List Deed) : List Nat := (l.foldl visit ([], false)).1

/-- What a chain executes since its start, put behind what was executed before. -/
def resume (is : List Nat) : List Nat → List Nat
  | [] => is
  | j :: js => if is.getLast? = some j then is ++ js else is ++ j :: js

theorem foldl_visit_false {l : List Deed} (hl : ∀ p, .started p ∉ l) (is : List Nat) :
    l.foldl visit (is, false) = (is ++ executions l, false) := by
  induction l generalizing is with
  | nil => rw [executions, List.filterMap_nil, List.append_nil]; rfl
  | cons d l ih =>
    have hrest := ih fun p hp => hl p (List.mem_cons_of_mem _ hp)
    cases d with
    | started p => exact absurd List.mem_cons_self (hl p)
    | executed i =>
      show l.foldl visit (is ++ [i], false) = (is ++ i :: executions l, false)
      rw [hrest, List.append_assoc]
      rfl
    | _ => exact hrest is

theorem foldl_visit_true {l : List Deed} (hl : ∀ p, .started p ∉ l) (is : List Nat) :
    (l.foldl visit (is, true)).1 = resume is (executions l) := by
  induction l with
  | nil => rfl
  | cons d l ih =>
    have hmem : ∀ p, .started p ∉ l := fun p hp => hl p (List.mem_cons_of_mem _ hp)
    cases d with
    | started p => exact absurd List.mem_cons_self (hl p)
    | executed i =>
      show (l.foldl visit (visit (is, true) (.executed i))).1 = resume is (i :: executions l)
      simp only [visit, resume, Bool.true_and, beq_iff_eq]
      split
      · rw [foldl_visit_false hmem]
      · rw [foldl_visit_false hmem, List.append_assoc]
        rfl
    | _ => exact ih hmem

/-- A restart goes on where it was left off. -/
theorem visits_started {l l' : List Deed} {p : Nat} (hl' : ∀ q, .started q ∉ l') :
    visits (l ++ .started p :: l') = resume (visits l) (executions l') := by
  rw [visits, List.foldl_append]
  exact foldl_visit_true hl' _

/-- Without a restart, every step that is executed counts. -/
theorem visits_eq_executions {l : List Deed} {p : Nat} (hl : ∀ q, .started q ∉ l) :
    visits (.started p :: l) = executions l := by
  have hvisits : visits ([] ++ .started p :: l) = resume [] (executions l) := visits_started hl
  rw [List.nil_append] at hvisits
  rw [hvisits]
  cases executions l <;> rfl

theorem not_started_recent (l : List Deed) : ∀ p, .started p ∉ recent l := by
  induction l using List.reverseRecOn with
  | nil => exact fun p hp => by cases hp
  | append_singleton l d ih =>
    by_cases hd : ∃ p, d = .started p
    · obtain ⟨p, rfl⟩ := hd
      rw [recent_started]
      exact fun q hq => by cases hq
    · have hne : ∀ p, d ≠ .started p := fun p hp => hd ⟨p, hp⟩
      rw [recent_concat l hne]
      intro p hp
      rcases List.mem_append.1 hp with hp | hp
      · exact ih p hp
      · exact hne p (List.mem_singleton.1 hp).symm

end Deed

namespace Definition

variable {D : Definition} {f : Nat → Outcome} {p q r : Nat} {is js : List Nat}

namespace Stands

/-- What is executed first is the step at the position. -/
theorem head_eq {j : Nat} (h : D.Stands f p (j :: js) q) : j = p := by
  obtain h | ⟨js', heq, -, h⟩ := h
  · cases h with
    | step => rfl
  · cases h with
    | here => exact (List.cons.inj heq).1
    | step => exact (List.cons.inj heq).1

theorem nil_eq (h : D.Stands f p [] q) : q = p := by
  obtain h | ⟨js', heq, -, -⟩ := h
  · cases h
    rfl
  · cases js' <;> cases heq

/-- What has been executed leads to the position, and from there the restart goes on. -/
theorem resume_cons (h : D.Stands f p is q) (js : List Nat) :
    ∃ is', D.Path f p is' q ∧ Deed.resume is (q :: js) = is' ++ q :: js := by
  by_cases hlast : is.getLast? = some q
  · obtain ⟨-, is', rfl, hpath⟩ := h.of_getLast hlast
    refine ⟨is', hpath, ?_⟩
    simp only [Deed.resume, hlast, if_true]
    exact (List.append_cons is' q js).symm
  · refine ⟨is, h.of_getLast_ne hlast, ?_⟩
    simp only [Deed.resume, hlast, if_false]

/-- **A restart stands where a run would without it.** -/
theorem resume (h : D.Stands f p is q) (h' : D.Stands f q js r) :
    D.Stands f p (Deed.resume is js) r := by
  cases js with
  | nil =>
    obtain rfl := h'.nil_eq
    exact h
  | cons j js =>
    obtain rfl := h'.head_eq
    obtain ⟨is', hpath, heq⟩ := h.resume_cons js
    rw [heq]
    obtain h' | ⟨js', hjs, hr, h'⟩ := h'
    · exact .inl (hpath.trans h')
    · rw [hjs, ← List.append_assoc]
      exact .inr ⟨_, rfl, hr, hpath.trans h'⟩

/-- **A restart arrives where a run would without it.** -/
theorem resume_arrives (h : D.Stands f p is q) (h' : D.Arrives f q js r) :
    D.Arrives f p (Deed.resume is js) r := by
  cases js with
  | nil =>
    obtain rfl := h'.stands.nil_eq
    obtain ⟨hend, js', -, hjs⟩ := h'
    have hsize : ¬ r < D.size := by
      intro hr
      rw [if_pos hr] at hjs
      cases js' <;> cases hjs
    -- The step at the position was not executed: there is none.
    have hpath := h.of_getLast_ne fun hlast => hsize (h.of_getLast hlast).1
    refine ⟨hend, is, hpath, ?_⟩
    rw [if_neg hsize, List.append_nil]
    rfl
  | cons j js =>
    obtain rfl := h'.stands.head_eq
    obtain ⟨is', hpath, heq⟩ := h.resume_cons js
    obtain ⟨hend, js', hpath', hjs⟩ := h'
    refine ⟨hend, _, hpath.trans hpath', ?_⟩
    rw [heq, hjs, List.append_assoc]

end Stands

end Definition

/-! ## Conclusions -/

/-- How an instance ends, unless it is interrupted. -/
inductive Conclusion
  | completed
  | failed (index : Nat) (cause : Cause)
  | waiting (index : Nat)
  | unknownLabel (index : Nat) (label : String)

/-- Whether a chain has come to its end by this deed without being interrupted. -/
def Deed.isEnd : Deed → Bool
  | .stopped _ | .halted (.unknownLabel _ _) => true
  | _ => false

/-- The deeds with which an instance ends. -/
inductive Deed.Concludes : List Deed → Conclusion → Prop
  | completed {l output notice settlement result} :
      Concludes (l ++ [.passed output, .published notice, .settled settlement, .stopped result])
        .completed
  | failed {l i cause settlement notice result} :
      Concludes (l ++ [.returned i (.failure cause), .settled settlement, .published notice,
        .stopped result]) (.failed i cause)
  | waiting {l i message notice settlement result} :
      Concludes (l ++ [.returned i (.wait message), .saved i, .published notice,
        .settled settlement, .stopped result]) (.waiting i)
  | unknownLabel {l i label workflow} :
      Concludes (l ++ [.returned i (.jump label), .halted (.unknownLabel workflow label)])
        (.unknownLabel i label)

/-- The conclusion at a position, if nothing follows from it. -/
def Definition.conclusion? (D : Definition) (f : Nat → Outcome) (p : Nat) : Option Conclusion :=
  if D.size ≤ p then some .completed
  else
    match f p with
    | .failure cause => some (.failed p cause)
    | .wait _ => some (.waiting p)
    | .jump label => if D.labelIndex? label = none then some (.unknownLabel p label) else none
    | .proceed | .delay _ => none

theorem Definition.isLast_of_conclusion? {D : Definition} {f : Nat → Outcome} {p : Nat}
    {k : Conclusion} (h : D.conclusion? f p = some k) : D.IsLast f p := by
  rw [conclusion?] at h
  split at h
  · rename_i hp
    exact .inl hp
  · refine .inr ?_
    cases hf : f p with
    | failure cause => rfl
    | wait message => rfl
    | jump label =>
      rw [hf] at h
      simp only at h
      split at h
      · rename_i hlabel
        exact hlabel
      · cases h
    | proceed => rw [hf] at h; cases h
    | delay duration => rw [hf] at h; cases h

namespace Deed.Concludes

variable {l : List Deed} {k k' : Conclusion}

theorem append_left (h : Concludes l k) (l₀ : List Deed) : Concludes (l₀ ++ l) k := by
  cases h with
  | completed => rw [← List.append_assoc]; exact .completed
  | failed => rw [← List.append_assoc]; exact .failed
  | waiting => rw [← List.append_assoc]; exact .waiting
  | unknownLabel => rw [← List.append_assoc]; exact .unknownLabel

/-- An instance ends in one way. -/
theorem unique (h : Concludes l k) (h' : Concludes l k') : k = k' := by
  generalize hl : l = m at h'
  -- Read from their ends, the deeds of two different conclusions do not agree.
  cases h <;> cases h' <;> replace hl := congrArg List.reverse hl <;> simp_all

/-- The last deed comes to the end. -/
theorem last (h : Concludes l k) : ∃ l₀ d, l = l₀ ++ [d] ∧ d.isEnd := by
  cases h with
  | @completed l output notice settlement result =>
    exact ⟨l ++ [.passed output, .published notice, .settled settlement], .stopped result,
      by simp, rfl⟩
  | @failed l i cause settlement notice result =>
    exact ⟨l ++ [.returned i (.failure cause), .settled settlement, .published notice],
      .stopped result, by simp, rfl⟩
  | @waiting l i message notice settlement result =>
    exact ⟨l ++ [.returned i (.wait message), .saved i, .published notice, .settled settlement],
      .stopped result, by simp, rfl⟩
  | @unknownLabel l i label workflow =>
    exact ⟨l ++ [.returned i (.jump label)], .halted (.unknownLabel workflow label), by simp,
      rfl⟩

end Deed.Concludes

/-! ## Conclusions of chains -/

section

variable {D : Definition} {f : Nat → Outcome} {c : Chain} {φ : Phase} {p p₀ i : Nat}
  {T r : List Deed} {d : Deed}

/-- A round in which a chain stops concludes at its index. -/
theorem Round.stopped_concludes {result : RunResult} (hf : ∀ i c o c', D.Returns i c o c' → o = f i)
    (h : Round D i r c (.acting ⟨[], .stop result⟩) p) :
    p = i ∧ ∃ k, Deed.Concludes (r ++ [.stopped result]) k ∧ D.conclusion? f i = some k ∧
      Deed.executions r = if i < D.size then [i] else [] := by
  cases h with
  | @acting c o now done es turn context hr hplan =>
    have hsize : ¬ D.size ≤ i := Nat.not_le.2 hr.lt_size
    have hexecutions : Deed.executions (.executed i :: .returned i o :: done.map (Effect.deed c)) =
        if i < D.size then [i] else [] := by
      rw [if_pos hr.lt_size]
      exact congrArg (i :: ·) (Deed.executions_map_deed c done)
    obtain rfl := hf i context o c.context hr
    rw [List.append_nil] at hplan
    obtain ⟨message, ho, rfl, rfl⟩ | ⟨cause, ho, rfl, rfl⟩ := Plan.stop_cases hplan
    · rw [ho] at hexecutions ⊢
      refine ⟨rfl, .waiting i, .waiting (l := [.executed i]), ?_, hexecutions⟩
      rw [Definition.conclusion?, if_neg hsize, ho]
    · rw [ho] at hexecutions ⊢
      refine ⟨rfl, .failed i cause, .failed (l := [.executed i]), ?_, hexecutions⟩
      rw [Definition.conclusion?, if_neg hsize, ho]
  | @ending c done es turn hi hplan =>
    rw [List.append_nil] at hplan
    cases hplan
    refine ⟨rfl, .completed, .completed (l := []), ?_, ?_⟩
    · rw [Definition.conclusion?, if_pos hi]
    · rw [if_neg (Nat.not_lt.2 hi)]
      rfl

/-- A round that does not know the label of a jump concludes at its index. -/
theorem Round.halted_concludes {workflow label : String}
    (hf : ∀ i c o c', D.Returns i c o c' → o = f i)
    (h : Round D i r c (.halting (.unknownLabel workflow label)) p) :
    p = i ∧ ∃ k, Deed.Concludes (r ++ [.halted (.unknownLabel workflow label)]) k ∧
      D.conclusion? f i = some k ∧ Deed.executions r = if i < D.size then [i] else [] := by
  cases h with
  | @misjumped c o now fault context hr hplan =>
    have hsize : ¬ D.size ≤ p := Nat.not_le.2 hr.lt_size
    obtain rfl := hf p context o c.context hr
    obtain ⟨target, ho, hlabel, hfault⟩ := Plan.error_cases hplan
    obtain ⟨rfl, rfl⟩ := Fault.unknownLabel.inj hfault
    rw [ho]
    refine ⟨rfl, .unknownLabel p label, .unknownLabel (l := [.executed p]), ?_, ?_⟩
    · rw [Definition.conclusion?, if_neg hsize, ho]
      exact if_pos hlabel
    · rw [if_pos hr.lt_size]
      rfl

/-- **A chain that is not interrupted concludes**, and has executed all that there was to. -/
theorem Recalls.concludes (hf : ∀ i c o c', D.Returns i c o c' → o = f i)
    (h : Recalls D p₀ T c φ p) (hd : Ends φ d) (hend : d.isEnd) :
    ∃ k, Deed.Concludes (T ++ [d]) k ∧ D.conclusion? f p = some k ∧
      D.Arrives f p₀ (Deed.executions T) p := by
  obtain ⟨T₀, i, r, rfl, htrail, hround⟩ := h
  have hconcludes : p = i ∧ ∃ k, Deed.Concludes (r ++ [d]) k ∧ D.conclusion? f i = some k ∧
      Deed.executions r = if i < D.size then [i] else [] := by
    cases hd with
    | stop => exact hround.stopped_concludes hf
    | @halt fault =>
      cases fault with
      | unknownLabel workflow label => exact hround.halted_concludes hf
      | _ => cases hend
    | panic => cases hend
    | drop => cases hend
    | lose => cases hend
  obtain ⟨rfl, k, hk, hconclusion, hexecutions⟩ := hconcludes
  refine ⟨k, ?_, hconclusion, D.isLast_of_conclusion? hconclusion, _, htrail.path hf, ?_⟩
  · rw [List.append_assoc]
    exact hk.append_left T₀
  · rw [Deed.executions_append, hexecutions]

/-- The deeds of a chain begin with its only start. -/
theorem Recalls.eq_cons (h : Recalls D p₀ T c φ p) :
    ∃ U, T = .started p₀ :: U ∧ (∀ q, .started q ∉ U) := by
  obtain ⟨T₀, i, r, rfl, htrail, hround⟩ := h
  have hrecent := htrail.recent []
  rw [List.nil_append] at hrecent
  refine ⟨Deed.recent T₀ ++ r, by rw [← List.cons_append, hrecent], ?_⟩
  intro q hq
  rcases List.mem_append.1 hq with hq | hq
  · exact Deed.not_started_recent T₀ q hq
  · exact hround.not_started q hq

end

namespace Story

variable {D : Definition} {f : Nat → Outcome} {x : String} {p₀ p : Nat} {l : List Deed}
  {st : Option (Chain × Phase)} {c : Chain} {φ : Phase} {d : Deed}

/-- What has been executed before the last start, and since then. -/
theorem visits_recalls (h : Story D x p₀ l (some (c, φ)) p) :
    ∃ l₀ p₁ T, l = l₀ ++ T ∧ l₀.length < l.length ∧ Story D x p₀ l₀ none p₁ ∧
      Recalls D p₁ T c φ p ∧ Deed.visits l = Deed.resume (Deed.visits l₀) (Deed.executions T) := by
  obtain ⟨-, l₀, p₁, T, rfl, h₀, hT⟩ := h.recalls
  obtain ⟨U, rfl, hU⟩ := hT.eq_cons
  refine ⟨l₀, p₁, _, rfl, ?_, h₀, hT, Deed.visits_started hU⟩
  rw [List.length_append, List.length_cons]
  omega

/-- The end of a chain executes nothing. -/
theorem visits_over (h : Ends φ d) (l : List Deed) :
    Deed.visits (l ++ [d]) = Deed.visits l := by
  rw [Deed.visits, List.foldl_append]
  cases h <;> rfl

/-- A story of a single run counts every step. -/
theorem visits_of_single (h : Story D x p₀ l st p) (hl : ∀ d ∈ l.tail, d.isStart = false) :
    Deed.visits l = Deed.executions l := by
  cases l with
  | nil => rfl
  | cons d l =>
    -- Nothing is done before a chain has started.
    have hfirst : ∃ q, d = .started q := by
      obtain ⟨st₁, p₁, hstory, hoccurs⟩ := h.occurs (List.nil_append _).symm
      cases st₁ with
      | none =>
        cases hoccurs with
        | start => exact ⟨_, rfl⟩
      | some s =>
        obtain ⟨l₀, p₁, T, -, hlt, -⟩ := hstory.visits_recalls
        exact absurd hlt (Nat.not_lt_zero _)
    obtain ⟨q, rfl⟩ := hfirst
    refine Deed.visits_eq_executions fun q hq => ?_
    cases hl _ hq

/-- **What has been executed stands at the position**, wherever the instance was interrupted. -/
theorem stands (hf : ∀ i c o c', D.Returns i c o c' → o = f i) (h : Story D x p₀ l st p) :
    D.Stands f p₀ (Deed.visits l) p := by
  -- The chain that is there started after a shorter story.
  induction hn : l.length using Nat.strong_induction_on generalizing l st p with
  | _ n ih =>
    have chain : ∀ {l c φ p}, l.length ≤ n → Story D x p₀ l (some (c, φ)) p →
        D.Stands f p₀ (Deed.visits l) p := by
      intro l c φ p hle h
      obtain ⟨l₀, p₁, T, rfl, hlt, h₀, hT, hvisits⟩ := h.visits_recalls
      rw [hvisits]
      exact (ih l₀.length (by omega) h₀ rfl).resume (hT.stands hf)
    cases h with
    | nil => exact .start
    | start h hD hc hx => exact chain hn.le (h.start hD hc hx)
    | go h hgo => exact chain hn.le (h.go hgo)
    | @ended l' _ _ _ _ h hd =>
      rw [visits_over hd]
      refine chain ?_ h
      rw [List.length_append] at hn
      omega

/-- **An instance whose last chain is not interrupted concludes**, as its position tells. -/
theorem concludes (hf : ∀ i c o c', D.Returns i c o c' → o = f i)
    (h : Story D x p₀ (l ++ [d]) st p) (hend : d.isEnd) :
    ∃ k, Deed.Concludes (l ++ [d]) k ∧ D.conclusion? f p = some k ∧
      D.Arrives f p₀ (Deed.visits (l ++ [d])) p := by
  obtain ⟨st₁, p₁, hstory, hoccurs⟩ := h.occurs rfl
  obtain ⟨c, φ, rfl, hd⟩ : ∃ c φ, st₁ = some (c, φ) ∧ Ends φ d := by
    cases hoccurs with
    | start => cases hend
    | go hgo => cases hgo <;> cases hend
    | ended hd => exact ⟨_, _, rfl, hd⟩
  have hposition : p = p₁ := by
    rw [h.position_eq, hstory.position_eq, Deed.position_append]
    cases hd <;> rfl
  subst hposition
  obtain ⟨l₀, p₁, T, rfl, -, h₀, hT, hvisits⟩ := hstory.visits_recalls
  obtain ⟨k, hk, hconclusion, harrives⟩ := hT.concludes hf hd hend
  refine ⟨k, ?_, hconclusion, ?_⟩
  · rw [List.append_assoc]
    exact hk.append_left l₀
  · rw [visits_over hd, hvisits]
    exact (h₀.stands hf).resume_arrives harrives

theorem concludes_of_getLast (hf : ∀ i c o c', D.Returns i c o c' → o = f i)
    (h : Story D x p₀ l st p) (hend : l.getLast?.any Deed.isEnd) : ∃ k, Deed.Concludes l k := by
  cases hlast : l.getLast? with
  | none =>
    rw [hlast] at hend
    cases hend
  | some d =>
    rw [hlast] at hend
    obtain ⟨l', rfl⟩ := List.getLast?_eq_some_iff.1 hlast
    obtain ⟨k, hk, -⟩ := h.concludes hf hend
    exact ⟨k, hk⟩

theorem arrives (hf : ∀ i c o c', D.Returns i c o c' → o = f i) {k : Conclusion}
    (h : Story D x p₀ l st p) (hk : Deed.Concludes l k) :
    D.conclusion? f p = some k ∧ D.Arrives f p₀ (Deed.visits l) p := by
  obtain ⟨l', d, rfl, hend⟩ := hk.last
  obtain ⟨k', hk', hconclusion, harrives⟩ := h.concludes hf hend
  obtain rfl := hk.unique hk'
  exact ⟨hconclusion, harrives⟩

end Story

namespace Engine

namespace Course

variable {e e' : Engine} {D : Definition} {x : String} {as as' : List Act}

/-- **A run that is interrupted and started again is equivalent to one that is not.** Let the
outcomes of the steps depend on the steps only, and let two histories begin with the same position
of the instance, the first one with a single run. However often the runs of the second one are
interrupted, up to what is executed again after an interruption it executes the same steps, for as
long as both go on; neither executes more than what the other one has executed at its end; and if
both come to their end, it is the same end, and at the same position. A run that ends by itself has
come to one of these ends. -/
theorem restart_equivalent (hD : D.IsSteady) (h : e.Course D x as) (h' : e'.Course D x as')
    (hposition : e'.position x = e.position x)
    (hsingle : ∀ d ∈ (e.story x as).tail, d.isStart = false) :
    (Deed.visits (e'.story x as') <+: Deed.executions (e.story x as) ∨
      Deed.executions (e.story x as) <+: Deed.visits (e'.story x as')) ∧
    (∀ k, Deed.Concludes (e.story x as) k →
      Deed.visits (e'.story x as') <+: Deed.executions (e.story x as)) ∧
    (∀ k', Deed.Concludes (e'.story x as') k' →
      Deed.executions (e.story x as) <+: Deed.visits (e'.story x as')) ∧
    (∀ k k', Deed.Concludes (e.story x as) k → Deed.Concludes (e'.story x as') k' →
      Deed.visits (e'.story x as') = Deed.executions (e.story x as) ∧
        (e'.after as').position x = (e.after as).position x ∧ k' = k) ∧
    ((e.story x as).getLast?.any Deed.isEnd → ∃ k, Deed.Concludes (e.story x as) k) ∧
    ((e'.story x as').getLast?.any Deed.isEnd → ∃ k, Deed.Concludes (e'.story x as') k) := by
  obtain ⟨f, hf⟩ := hD.outcome
  obtain ⟨st, hstory⟩ := h.story
  obtain ⟨st', hstory'⟩ := h'.story
  rw [hposition] at hstory'
  have hvisits : Deed.visits (e.story x as) = Deed.executions (e.story x as) :=
    hstory.visits_of_single hsingle
  rw [← hvisits]
  refine ⟨(hstory'.stands hf).compare (hstory.stands hf), ?_, ?_, ?_, ?_, ?_⟩
  · intro k hk
    exact (hstory'.stands hf).prefix_arrives (hstory.arrives hf hk).2
  · intro k' hk'
    exact (hstory.stands hf).prefix_arrives (hstory'.arrives hf hk').2
  · intro k k' hk hk'
    obtain ⟨hconclusion, harrives⟩ := hstory.arrives hf hk
    obtain ⟨hconclusion', harrives'⟩ := hstory'.arrives hf hk'
    obtain ⟨hsteps, hlast⟩ := harrives'.unique harrives
    refine ⟨hsteps, hlast, ?_⟩
    rw [hlast, hconclusion] at hconclusion'
    exact (Option.some.inj hconclusion').symm
  · exact hstory.concludes_of_getLast hf
  · exact hstory'.concludes_of_getLast hf

end Course

end Engine

namespace Greeting

/-- A run that is cut off once its step has returned, one that is lost while its delay passes, and
one that goes on to the end. -/
def interruptions : List Act :=
  [.addRunner registry .empty, .run ⟨0⟩ (.root 0) request] ++ .replicate 3 (.advance 2) ++
    [.cut 2, .run ⟨0⟩ (.root 0) request] ++ .replicate 7 (.advance 4) ++
    [.drop 0, .run ⟨0⟩ (.root 0) request] ++ .replicate 9 (.advance 7)

theorem isSteady_definition : definition.IsSteady := by
  refine Definition.isSteady_of_constant fun s hs => ?_
  rcases List.mem_cons.1 hs with rfl | hs
  · exact ⟨_, rfl⟩
  · rw [List.mem_singleton.1 hs]
    exact ⟨_, rfl⟩

theorem course_interruptions : engine.Course definition "x" interruptions := by
  have hmeets : ∀ {S : Standard}, S.definition definition → ∀ a ∈ interruptions, a.Meets S :=
    fun hS => Act.forall_meets (meets_registry hS) rfl
  refine .of_only ⟨rfl, rfl, rfl, rfl⟩ (hmeets isLoyal_definition) (hmeets rfl) ?_
  decide +kernel

/-- However the greeting is interrupted, it comes to the end to which it comes without that. -/
theorem restarted :
    Deed.visits (engine.story "x" interruptions) = Deed.executions (engine.story "x" acts) ∧
      (engine.after interruptions).position "x" = (engine.after acts).position "x" ∧
      ∃ k, Deed.Concludes (engine.story "x" acts) k ∧
        Deed.Concludes (engine.story "x" interruptions) k := by
  obtain ⟨-, -, -, hsame, hends, hends'⟩ := course.restart_equivalent isSteady_definition
    course_interruptions rfl (by decide +kernel)
  obtain ⟨k, hk⟩ := hends (by decide +kernel)
  obtain ⟨k', hk'⟩ := hends' (by decide +kernel)
  obtain ⟨hvisits, hposition, rfl⟩ := hsame k k' hk hk'
  exact ⟨hvisits, hposition, k', hk, hk'⟩

end Greeting

end DurableFlow
