import DurableFlow.Proofs.Cancellation.CancelledCallers

/-!
# Cancelled chains

What becomes of a chain under a cancelled token, and what its caller is told. As long as its step
has not returned, the chain is broken off: whoever has called for it is told that it is cancelled,
and it has announced nothing but delays. Once its step has returned, the outcome decides, and the
cancellation shows only where a delay is refused by the scheduler.

Main statement: every end of a chain under a cancelled token is one of these
(`Engine.IsNew.interrupts`). A step may also make something else of the cancellation of a nested run
that it waits for (`CancelledByStep.surfaces`).
-/

namespace DurableFlow

/-! ## How far a chain has got -/

namespace Round

variable {D : Definition} {i p : Nat} {r : List Deed} {c : Chain} {plan : Plan} {fault : Fault}

/-- A round that is given up has at most begun its step. -/
theorem of_withdrawn (h : Round D i r c (.halting .cancelled) p) : r = [] ∨ r = [.executed i] := by
  cases h with
  | withdrawn => exact .inl rfl
  | aborted _ => exact .inr rfl
  | misjumped hr hplan =>
    obtain ⟨label, -, -, heq⟩ := Plan.error_cases hplan
    cases heq

/-- A chain has a plan once its step has returned, or behind its last step. -/
theorem of_acting (h : Round D i r c (.acting plan) p) :
    (∃ o, .returned i o ∈ r) ∨ ∃ output, .passed output ∈ r := by
  cases h with
  | @acting _ o => exact .inl ⟨o, by simp⟩
  | ending => exact .inr ⟨_, List.mem_cons_self⟩

/-- A fault that is no cancellation stops a chain whose step has returned. -/
theorem of_halting (h : Round D i r c (.halting fault) p) (hfault : fault ≠ .cancelled) :
    (∃ o, .returned i o ∈ r) ∨ ∃ output, .passed output ∈ r := by
  have more : ∀ {r : List Deed} (x : Deed),
      ((∃ o, .returned i o ∈ r) ∨ ∃ output, .passed output ∈ r) →
      (∃ o, .returned i o ∈ r ++ [x]) ∨ ∃ output, .passed output ∈ r ++ [x] := by
    rintro r x (⟨o, ho⟩ | ⟨output, ho⟩)
    · exact .inl ⟨o, List.mem_append_left _ ho⟩
    · exact .inr ⟨output, List.mem_append_left _ ho⟩
  cases h with
  | withdrawn => exact absurd rfl hfault
  | aborted _ => exact absurd rfl hfault
  | @misjumped _ o => exact .inl ⟨o, by simp⟩
  | unsaved h => exact more _ h.of_acting
  | refused h => exact more _ h.of_acting
  | unscheduled h => exact more _ h.of_acting

/-- The scheduler refuses nothing but a delay that a step has asked for. -/
theorem of_unscheduled {error : SchedulerError}
    (h : Round D i r c (.halting (.scheduler error)) p) :
    ∃ duration due, r = [.executed i, .returned i (.delay duration), .saved (i + 1),
      .published (c.notice (.delayed (i + 1) due)), .unscheduled (i + 1)] := by
  cases h with
  | misjumped hr hplan =>
    obtain ⟨label, -, -, heq⟩ := Plan.error_cases hplan
    cases heq
  | @unscheduled r _ _ _ due _ h =>
    cases h with
    | acting hr hplan =>
      rw [List.append_nil] at hplan
      obtain ⟨duration, rfl, rfl, rfl⟩ := Plan.suspend_cases hplan
      exact ⟨duration, due, rfl⟩
    | ending hi hplan =>
      rw [List.append_nil] at hplan
      cases hplan

end Round

namespace Deed

/-- The chain has done complete rounds, and has at most begun another one. -/
def IsBrokenOff (D : Definition) (p₀ : Nat) (T : List Deed) : Prop :=
  ∃ T₀ i, Trail D p₀ T₀ i ∧ (T = T₀ ∨ T = T₀ ++ [.executed i])

/-- The step of the last round has returned, or there was none. -/
def IsDecided (D : Definition) (p₀ : Nat) (T : List Deed) : Prop :=
  ∃ T₀ i r, Trail D p₀ T₀ i ∧ T = T₀ ++ r ∧
    ((∃ o, .returned i o ∈ r) ∨ ∃ output, .passed output ∈ r)

/-- The step of the last round has asked for a delay, which the scheduler has refused. -/
def IsUnscheduled (D : Definition) (p₀ : Nat) (T : List Deed) : Prop :=
  ∃ T₀ i duration notice, Trail D p₀ T₀ i ∧ notice.topic = .delayed ∧
    T = T₀ ++ [.executed i, .returned i (.delay duration), .saved (i + 1), .published notice,
      .unscheduled (i + 1)]

variable {D : Definition} {p₀ p i : Nat} {T : List Deed} {c : Chain} {fault : Fault}

/-- A chain that is broken off has announced nothing but delays. -/
theorem IsBrokenOff.topic (h : IsBrokenOff D p₀ T) {n : Notice} (hn : .published n ∈ T) :
    n.topic = .delayed := by
  obtain ⟨T₀, i, htrail, rfl | rfl⟩ := h
  · exact htrail.passing _ hn
  · exact htrail.passing _ (by simpa using hn)

theorem IsUnscheduled.topic (h : IsUnscheduled D p₀ T) {n : Notice} (hn : .published n ∈ T) :
    n.topic = .delayed := by
  obtain ⟨T₀, i, duration, notice, htrail, hnotice, rfl⟩ := h
  rcases List.mem_append.1 hn with hn | hn
  · exact htrail.passing _ hn
  · obtain rfl : n = notice := by simpa using hn
    exact hnotice

end Deed

namespace Recalls

variable {D : Definition} {p₀ p i : Nat} {T : List Deed} {c : Chain} {fault : Fault}

theorem isBrokenOff (h : Recalls D p₀ T c (.halting .cancelled) p) : Deed.IsBrokenOff D p₀ T := by
  obtain ⟨T₀, i, r, rfl, htrail, hround⟩ := h
  obtain rfl | rfl := hround.of_withdrawn
  · exact ⟨T₀, i, htrail, .inl (List.append_nil _)⟩
  · exact ⟨T₀, i, htrail, .inr rfl⟩

theorem isBrokenOff_of_within (h : Recalls D p₀ T c (.within i) p) : Deed.IsBrokenOff D p₀ T := by
  obtain ⟨T₀, j, r, rfl, htrail, hround⟩ := h
  cases hround with
  | within _ => exact ⟨T₀, _, htrail, .inr rfl⟩

theorem isBrokenOff_of_resting (h : Recalls D p₀ T c (.resting i) p) : Deed.IsBrokenOff D p₀ T := by
  obtain ⟨T₀, j, r, rfl, htrail, hround⟩ := h
  cases hround with
  | resting => exact ⟨T₀, _, htrail, .inl (List.append_nil _)⟩

theorem isDecided_of_acting {plan : Plan} (h : Recalls D p₀ T c (.acting plan) p) :
    Deed.IsDecided D p₀ T := by
  obtain ⟨T₀, i, r, rfl, htrail, hround⟩ := h
  exact ⟨T₀, i, r, htrail, rfl, hround.of_acting⟩

theorem isDecided (h : Recalls D p₀ T c (.halting fault) p) (hfault : fault ≠ .cancelled) :
    Deed.IsDecided D p₀ T := by
  obtain ⟨T₀, i, r, rfl, htrail, hround⟩ := h
  exact ⟨T₀, i, r, htrail, rfl, hround.of_halting hfault⟩

theorem isUnscheduled {error : SchedulerError}
    (h : Recalls D p₀ T c (.halting (.scheduler error)) p) : Deed.IsUnscheduled D p₀ T := by
  obtain ⟨T₀, i, r, rfl, htrail, hround⟩ := h
  obtain ⟨duration, due, rfl⟩ := hround.of_unscheduled
  exact ⟨T₀, i, duration, _, htrail, rfl, rfl⟩

end Recalls

/-- A chain that is broken off has settled nothing. -/
theorem Deed.IsBrokenOff.unsettled {D : Definition} {p₀ : Nat} {T : List Deed}
    (h : IsBrokenOff D p₀ T) (v : Settlement) : .settled v ∉ T := by
  obtain ⟨T₀, i, htrail, rfl | rfl⟩ := h
  · exact htrail.unsettled v
  · simpa using htrail.unsettled v

theorem Deed.IsUnscheduled.unsettled {D : Definition} {p₀ : Nat} {T : List Deed}
    (h : IsUnscheduled D p₀ T) (v : Settlement) : .settled v ∉ T := by
  obtain ⟨T₀, i, duration, notice, htrail, -, rfl⟩ := h
  simpa using htrail.unsettled v

namespace Deed

/-- All that is announced are delays. -/
def AnnounceOnlyDelays (T : List Deed) : Prop := ∀ n, .published n ∈ T → n.topic = .delayed

end Deed

/-- The strands that wait to be told the end of a chain remember that it is owed, as long as the
chain has settled nothing. -/
theorem Strand.Remembers.owes {l : List (Chain × Deed)} {s : Strand} (h : s.Remembers l)
    (hunsettled : ∀ {p₀ p : Nat} {T : List Deed},
      Recalls s.chain.definition p₀ T s.chain s.phase p → ∀ v, .settled v ∉ T)
    {k : CompletionId} (hk : s.origin.receiver? = some k) : s.chain.completion = some k := by
  obtain ⟨L, -, -, ⟨p₀, p, hrecalls⟩, hreceiver⟩ := h
  obtain ⟨hcompletion, -⟩ | ⟨c, v, hv, -⟩ := hreceiver k hk
  · exact hcompletion
  · exact absurd (List.mem_map_of_mem hv) (hunsettled hrecalls v)

namespace Engine

variable {S : Standard} {e : Engine} {as : List Act} {a : Act} {t : Task} {m : Member}
  {below : List Frame} {o : Origin} {c : Chain} {d : Deed} {stage : Stage} {fault : Fault}
  {own : Nat → Bool} {τ : Token}

/-! ## What callers are told -/

/-- Whoever has called for a chain, or waits for it, is told the settlement when the chain comes to
its end. -/
inductive Informs (e : Engine) (as : List Act) (a : Act) (c : Chain) (s : Settlement) :
    Member → Prop
  /-- The call for the chain returns it. -/
  | returns {t : Task} {o : Origin} {stage : Stage} {below : List Frame}
      (hframes : t.frames = .driving o c stage :: below) (ho : o ≠ .continuation)
      (hmove : ((e.after as).move t).Returns (e.after as) t s below) :
      Informs e as a c s (.task t)
  /-- After a delay, the call that waits is about to be told, unless it has been cut off. -/
  | telling {k : CompletionId} {m : Member} (hk : c.completion = some k)
      (h : none ∈ e.answers k as ∨ ∃ u ∈ ((e.after as).act a).tasks,
        ((e.after as).act a).IsTelling u k s) : Informs e as a c s m
  /-- After a delay, nobody waits. -/
  | nobody {m : Member} {φ : Phase} (hk : c.completion = none)
      (hm : ⟨.continuation, c, φ⟩ ∈ m.strands) : Informs e as a c s m
  /-- The call is given up together with the chain, by a task whose outermost chain is halted for
  the cancellation. -/
  | givenUp {t : Task} {o : Origin} {c' : Chain} (hs : s = .error (.fault .cancelled))
      (h : ∃ u ∈ ((e.after as).act a).tasks, u.number = t.number ∧ u.parked = false ∧
        u.frames = [.driving o c' (.halting .cancelled)]) : Informs e as a c s (.task t)

/-- The call that waits for a chain after a delay waits still, unless it has been cut off. -/
theorem IsNew.waits_of_continuation (h : e.IsNew) {φ : Phase} {k : CompletionId}
    (hs : ⟨.continuation, c, φ⟩ ∈ (e.after as).account.strands) (hk : c.completion = some k) :
    none ∈ e.answers k as ∨ 0 < (e.after as).account.waiting.count k := by
  obtain ⟨-, howes⟩ := h.owes_of_mem hs hk
  obtain ⟨⟨r, hr⟩, -⟩ | ⟨-, hone, hR⟩ := howes.caller
  · cases hr
  · cases hanswers : e.answers k as with
    | cons y rest =>
      rw [hanswers] at hR
      rw [hR y List.mem_cons_self]
      exact .inl List.mem_cons_self
    | nil =>
      rw [hanswers, List.length_nil] at hone
      exact .inr (by omega)

/-- **A chain that is halted before it has settled hands its fault to its caller.** -/
theorem IsNew.informs_halted (h : e.IsNew) (ht : t ∈ (e.after as).tasks) (hp : t.parked = false)
    (hframes : t.frames = .driving o c (.halting fault) :: below)
    (howed : ∀ k, o.receiver? = some k → c.completion = some k) :
    e.Informs as (.advance t.number) c (.error (.fault fault)) (.task t) := by
  have hsound : (e.after as).Sound .any := (h.sound .any).after_any as
  have hstrand := strand_mem_account ht (driving_mem_strands hframes)
  have hunsettled : ∀ k, o.receiver? = some k → (e.after as).settled.get? k = none :=
    fun k hk => (h.owes_of_mem hstrand (howed k hk)).2.settled
  cases o with
  | call r receiver =>
    exact .returns hframes (by simp) (hsound.returns_halting ht hp hframes (by simp) hunsettled)
  | direct =>
    exact .returns hframes (by simp) (hsound.returns_halting ht hp hframes (by simp) hunsettled)
  | continuation =>
    cases hk : c.completion with
    | none => exact .nobody hk (driving_mem_strands hframes)
    | some k =>
      refine .telling hk ((h.waits_of_continuation hstrand hk).imp_right fun hwaiting => ?_)
      exact hsound.isTelling_of_halted (hsound.task?_of_mem ht) hp hframes hk hwaiting

/-- **A chain that is dropped while it rests leaves its caller told that it is cancelled.** -/
theorem IsNew.informs_dropped (h : e.IsNew) {place : Nat} {x : Timer Continuation}
    (hx : (e.after as).scheduler.timers.armed[place]? = some x)
    (hc : (e.after as).isCancelled x.token = true) :
    e.Informs as (.drop place) x.work.chain (.error (.fault .cancelled)) (.timer x) := by
  have hsound : (e.after as).Sound .any := (h.sound .any).after_any as
  have hstrand : x.strand ∈ (e.after as).account.strands :=
    Multiset.mem_add.2 (.inr (List.mem_map_of_mem (List.mem_of_getElem? hx)))
  cases hk : x.work.chain.completion with
  | none => exact .nobody hk (List.mem_singleton_self _)
  | some k =>
    refine .telling hk ((h.waits_of_continuation hstrand hk).imp_right fun hwaiting => ?_)
    obtain ⟨hpanicked, howes⟩ := h.owes_of_mem hstrand hk
    have hunsettled : ((e.after as).act (.drop place)).settled.get? k = none := howes.settled
    have htale : e.tale k (as ++ [.drop place]) = e.tale k as ++ [.dropped] := by
      rw [tale_concat]
      simp [deeds, hx, hc, Deed.owing_singleton_of_eq hk]
    -- The promise is decided: the chain has come to its end, and nothing has been settled.
    have howed : ((e.after as).act (.drop place)).isOwed k = false := by
      have hfate := h.fate k (as ++ [.drop place])
      rw [htale, after_concat] at hfate
      suffices hparties : ((e.after as).act (.drop place)).account.parties k = 0 from
        (Bool.or_eq_false_iff.1 (isUnderway_eq_false_iff.2 hparties)).1
      cases hfate with
      | promised hT hpromise =>
        cases hpromise with
        | unmade hT' => simp at hT'
        | owed _ howes' => cases howes'.final .dropped (by simp)
        | closing _ hcloses =>
          obtain ⟨v, hv, -⟩ := hcloses.settled
          cases hunsettled.symm.trans hv
        | decided hparties => exact hparties
        | panicked hpanic => exact absurd hpanic hT
      | ruptured hT => simp [hpanicked] at hT
    have hacted := hsound.act_any (.drop place)
    obtain ⟨u, hu, r, rest, hframes⟩ := hacted.exists_receiving hwaiting
    exact ⟨u, hu, hacted.isTelling_of_decided hu hframes howed (.inr ⟨hunsettled, rfl⟩)⟩

/-- **A call within a step that is aborted is given up with it**: what is left is the outermost
chain of the task, and it gives up. -/
theorem informs_abandoned (h : (e.after as).Sound S) (ht : t ∈ (e.after as).tasks)
    (hp : t.parked = true) (hc : (e.after as).isCancelled t.token = true)
    (hgive : (abandon t).isSome = true) :
    e.Informs as (.advance t.number) c (.error (.fault .cancelled)) (.task t) := by
  obtain ⟨u, hu⟩ := Option.isSome_iff_exists.1 hgive
  obtain ⟨o, c', hnumber, hawake, hframes⟩ : ∃ o c', u.number = t.number ∧ u.parked = false ∧
      u.frames = [.driving o c' (.halting .cancelled)] := by
    obtain ⟨_, _, _, _, -, -, rfl⟩ := abandon_eq_some hu
    exact ⟨_, _, rfl, rfl, rfl⟩
  refine .givenUp rfl ⟨u, ?_, hnumber, hawake, hframes⟩
  obtain ⟨-, l, l', htasks, hne⟩ := h.exists_split (h.task?_of_mem ht)
  have hmove : (e.after as).move t = .on (e.after as) u := by simp [move, hp, hc, hu]
  simp only [act, advance, h.task?_of_mem ht, hmove, Option.getD_some]
  rw [tasks_putTask htasks hne hnumber]
  exact List.mem_append_right _ List.mem_cons_self

/-- A step that is given up waits for a signal, or for the nested run above it. -/
theorem phase_of_waiting (h : t.Sound S) (hwaiting : t.isWaiting = true)
    (hframe : .driving o c stage ∈ t.frames) : ∃ i, stage.phase = .within i := by
  cases hframes : t.frames with
  | nil =>
    rw [hframes] at hframe
    cases hframe
  | cons f rest =>
    rw [hframes] at hframe
    rcases List.mem_cons.1 hframe with rfl | hrest
    · have hwaits : (Frame.driving o c stage).isWaiting = true := by
        simpa [Task.isWaiting, hframes] using hwaiting
      cases stage with
      | inside i b => exact ⟨i, rfl⟩
      | _ => cases hwaits
    · have hcalling := h.calling (.driving o c stage) (by rw [hframes]; exact hrest)
      cases stage with
      | calling i next => exact ⟨i, rfl⟩
      | _ => cases hcalling

/-! ## The ends of chains under a cancelled token -/

/-- What a chain has done since it started has a property: what it remembers among the deeds of its
family, and all that was done for whoever waits for it. -/
def Recounts (e : Engine) (own : Nat → Bool) (as : List Act) (c : Chain)
    (P : Nat → List Deed → Prop) : Prop :=
  (∃ L : List (Chain × Deed), L.Sublist (e.doings own as) ∧ (∀ x ∈ L, x.1.GoesOnAs c) ∧
    ∃ p₀, P p₀ (L.map Prod.snd)) ∧
  ∀ k, c.completion = some k → ∃ p₀, P p₀ (e.tale k as)

theorem IsNew.recounts (h : e.IsNew) (hown : e.IsHereditary own as) (hm : m ∈ (e.after as).members)
    (hmown : own m.number = true) {φ : Phase} (hs : ⟨o, c, φ⟩ ∈ m.strands)
    {P : Nat → List Deed → Prop}
    (hP : ∀ {p₀ p : Nat} {T : List Deed}, Recalls c.definition p₀ T c φ p → P p₀ T) :
    e.Recounts own as c P := by
  obtain ⟨L, hL, hsame, ⟨p₀, p, hrecalls⟩, -⟩ := h.remembers hown m hm hmown _ hs
  refine ⟨⟨L, hL, hsame, p₀, hP hrecalls⟩, fun k hk => ?_⟩
  have hstrand : ⟨o, c, φ⟩ ∈ (e.after as).account.strands := mem_account_of_members hm hs
  obtain ⟨q₀, q, hrecalls⟩ := (h.owes_of_mem hstrand hk).2.recalls
  exact ⟨q₀, hP hrecalls⟩

/-- How a chain comes to its end under a cancelled token. -/
inductive Interrupts (e : Engine) (own : Nat → Bool) (as : List Act) (a : Act) (c : Chain) :
    Deed → Member → Prop
  /-- Before its step has returned: it is broken off, and its caller is told that it is
  cancelled. -/
  | brokenOff {d : Deed} {m : Member} (hd : d = .halted .cancelled ∨ d = .dropped ∨ d = .lost)
      (hpast : e.Recounts own as c fun p₀ T =>
        Deed.IsBrokenOff c.definition p₀ T ∧ Deed.AnnounceOnlyDelays T)
      (htold : e.Informs as a c (.error (.fault .cancelled)) m) : Interrupts e own as a c d m
  /-- The step has asked for a delay: the scheduler refuses it, and the caller is told so. -/
  | refused {error : SchedulerError} {m : Member} (hpast : e.Recounts own as c fun p₀ T =>
        Deed.IsUnscheduled c.definition p₀ T ∧ Deed.AnnounceOnlyDelays T)
      (htold : e.Informs as a c (.error (.fault (.scheduler error))) m) :
      Interrupts e own as a c (.halted (.scheduler error)) m
  /-- The step has returned otherwise, or there is none: it is not the cancellation that stops the
  chain. -/
  | decided {d : Deed} {m : Member}
      (hd : (∃ result, d = .stopped result) ∨
        ∃ fault, d = .halted fault ∧ fault ≠ .cancelled ∧ ∀ error, fault ≠ .scheduler error)
      (hpast : e.Recounts own as c fun p₀ T => Deed.IsDecided c.definition p₀ T) :
      Interrupts e own as a c d m
  | panicked {m : Member} : Interrupts e own as a c .panicked m

/-- A fault that halts a chain is told; for which reason it is, tells what the chain has done. -/
theorem IsNew.interrupts_halted (h : e.IsNew) (hown : e.IsHereditary own as)
    (ht : t ∈ (e.after as).tasks) (htown : own t.number = true) (hp : t.parked = false)
    (hframes : t.frames = .driving o c (.halting fault) :: below) :
    e.Interrupts own as (.advance t.number) c (.halted fault) (.task t) := by
  have hm := task_mem_members ht
  have hs := driving_mem_strands hframes
  have hremembers := h.remembers hown _ hm htown _ hs
  cases fault with
  | cancelled =>
    refine .brokenOff (.inl rfl) (h.recounts hown hm htown hs fun hrecalls => ?_) ?_
    · exact ⟨hrecalls.isBrokenOff, fun n hn => hrecalls.isBrokenOff.topic hn⟩
    · exact h.informs_halted ht hp hframes fun k hk =>
        hremembers.owes (fun hrecalls => hrecalls.isBrokenOff.unsettled) hk
  | scheduler error =>
    refine .refused (h.recounts hown hm htown hs fun hrecalls => ?_) ?_
    · exact ⟨hrecalls.isUnscheduled, fun n hn => hrecalls.isUnscheduled.topic hn⟩
    · exact h.informs_halted ht hp hframes fun k hk =>
        hremembers.owes (fun hrecalls => hrecalls.isUnscheduled.unsettled) hk
  | _ =>
    exact .decided (.inr ⟨_, rfl, by simp, by simp⟩)
      (h.recounts hown hm htown hs fun hrecalls => hrecalls.isDecided (by simp))

/-- **A cancellation that stops a chain is told as such.** Let a chain of the family of a run come
to its end once the token of the run is cancelled, and not be taken away from outside. If its last
step had not returned, it has announced nothing but delays, and its caller is told that it is
cancelled, or given up with it; if the step had asked for a delay, the same holds, but what the
caller is told is that the scheduler has refused. Otherwise an outcome has stopped the chain, or the
end of its steps. -/
theorem IsNew.interrupts (h : e.IsNew) {before after : List Act} {b : Act} {f : Frame}
    (hrun : as = before ++ b :: after) (hb : b.opening? = some (τ, f))
    (hc : (e.after as).isCancelled τ = true) (hend : (e.after as).Finishes c a d m)
    (hm : e.family (· == (e.after before).next) as m.number = true)
    (hcut : ∀ n, a ≠ .cut n) :
    e.Interrupts (e.family (· == (e.after before).next) as) as a c d m := by
  have hsound : (e.after as).Sound .any := (h.sound .any).after_any as
  have hown := (h.sound .any).isHereditary_family h.isMarked (· == (e.after before).next) as
  have hmem := hend.mem
  cases hend with
  | stop ht hp hframes =>
    exact .decided (.inl ⟨_, rfl⟩) (h.recounts hown hmem hm (driving_mem_strands hframes)
      fun hrecalls => hrecalls.isDecided_of_acting)
  | halt ht hp hframes => exact h.interrupts_halted hown ht hm hp hframes
  | panic => exact .panicked
  | @abandon t o stage ht hp htc hgive hframe =>
    have hframe' := List.dropLast_subset _ hframe
    obtain ⟨i, hphase⟩ := phase_of_waiting (hsound.tasks t ht) (h.isWaiting as ht hp) hframe'
    have hs : ⟨o, c, .within i⟩ ∈ (Member.task t).strands :=
      hphase ▸ List.mem_filterMap.2 ⟨_, hframe', rfl⟩
    refine .brokenOff (.inr (.inr rfl)) (h.recounts hown hmem hm hs fun hrecalls => ?_) ?_
    · exact ⟨hrecalls.isBrokenOff_of_within, fun n hn => hrecalls.isBrokenOff_of_within.topic hn⟩
    · exact informs_abandoned hsound ht hp htc hgive
  | @drop place x hx hchain hxc =>
    subst hchain
    have hs : ⟨.continuation, x.work.chain, .resting x.work.next⟩ ∈ (Member.timer x).strands :=
      List.mem_singleton_self _
    refine .brokenOff (.inr (.inl rfl)) (h.recounts hown hmem hm hs fun hrecalls => ?_) ?_
    · exact ⟨hrecalls.isBrokenOff_of_resting, fun n hn => hrecalls.isBrokenOff_of_resting.topic hn⟩
    · exact h.informs_dropped hx hxc
  | @take place x hx hchain hxc =>
    -- A timer of the family is under the token of the run.
    have hwithin := h.isWithin hown (h.isUnder_family hrun hb) _ hmem hm
    have hcancelled := Token.isCancelled_of_isWithin hwithin hc
    cases hxc.symm.trans hcancelled
  | cut => exact absurd rfl (hcut _)

end Engine

namespace AwaitedDelay

/-- The run is cancelled while its instance rests. -/
def cancelled : List Act := rests [.log "done"] ++ [.cancel (.root 0)]

/-- The chain that rests is dropped, and the caller who waits for it is told. -/
theorem broken_off :
    (Greeting.engine.after cancelled).isCancelled (.root 0) = true ∧ (∀ n, Act.drop 0 ≠ .cut n) ∧
      ∃ c d m, (Greeting.engine.after cancelled).Finishes c (.drop 0) d m ∧
        Greeting.engine.family (· == 2) cancelled m.number = true ∧
        Greeting.engine.Interrupts (Greeting.engine.family (· == 2) cancelled) cancelled (.drop 0)
          c d m := by
  have hnew : Greeting.engine.IsNew := ⟨rfl, rfl, rfl, rfl⟩
  have hcancelled : (Greeting.engine.after cancelled).isCancelled (.root 0) = true := by
    decide +kernel
  have hcut : ∀ n, Act.drop 0 ≠ .cut n := by simp
  have hrun : cancelled = [.addRunner (registry [.log "done"]) .empty] ++
      .run ⟨0⟩ (.root 0) { workflow := "vigil", inst := some "x", wait := true } ::
        (.replicate 8 (.advance 2) ++ [.cancel (.root 0)]) := rfl
  have hrests : ((Greeting.engine.after cancelled).scheduler.timers.armed[0]?).any (fun x =>
      (Greeting.engine.after cancelled).isCancelled x.token &&
        Greeting.engine.family (· == 2) cancelled (Member.timer x).number) = true := by
    decide +kernel
  obtain ⟨x, hx, hrest⟩ := (Option.any_eq_true _ _).1 hrests
  obtain ⟨hcx, hfamily⟩ := Bool.and_eq_true_iff.1 hrest
  have hend := Engine.Finishes.drop hx rfl hcx
  exact ⟨hcancelled, hcut, _, _, _, hend, hfamily,
    hnew.interrupts hrun rfl hcancelled hend hfamily hcut⟩

end AwaitedDelay

namespace CancelledByStep

/-- A workflow whose step cancels its run and asks for a delay; and one that starts an instance of
another one and waits for it, which cancels the run in its first step. -/
def registry : Registry :=
  ⟨((Table.empty.put "late"
      ⟨"late", [.code fun c => .cancel (.finish c (.delay .moment))]⟩).put "outer"
      ⟨"outer", [Nested.step { workflow := "inner", inst := some fun _ => .ok "y" }]⟩).put "inner"
      ⟨"inner", [.code fun c => .cancel (.finish c .proceed), .log "on"]⟩⟩

/-- A run for a caller who waits. -/
def acts (workflow : String) (n : Nat) : List Act :=
  [.addRunner registry .empty,
    .run ⟨0⟩ (.root 0) { workflow, inst := some "x", wait := true }] ++ .replicate n (.advance 2)

/-- **A cancellation is told under other names.** Both runs are stopped because a step has cancelled
them. The caller of the one is told that the scheduler has refused; the caller of the other one that
a step has failed, which is published as well. -/
theorem surfaces :
    Greeting.engine.IsNew ∧
      ((Greeting.engine.after (acts "late" 8)).cancelled = [.root 0] ∧
        (Greeting.engine.after (acts "late" 8)).endings =
          [(2, .returned (.error (.fault (.scheduler .cancelled))))]) ∧
      (Greeting.engine.after (acts "outer" 17)).cancelled = [.root 0] ∧
        (Greeting.engine.after (acts "outer" 17)).endings =
          [(2, .returned (.error (.stepFailed (.engine .cancelled))))] ∧
        Deed.announcements ((Greeting.engine.chronicle (acts "outer" 17)).map Prod.snd) =
          [⟨"x", "outer", .failed 0 (.engine .cancelled)⟩] :=
  ⟨⟨rfl, rfl, rfl, rfl⟩, ⟨rfl, rfl⟩, rfl, rfl, rfl⟩

end CancelledByStep

end DurableFlow
