import DurableFlow.Proofs.Publications.Announcements

/-!
# Verdicts

What a caller who waits is to be told can be read off the deeds that its chain does for as long as
it owes the answer (`Deed.Answers`): it has completed if the chain ran past its last step and that
was published, it waits if a step asked for it and that was saved and published, it has failed if a
step did, and otherwise there is a fault that stopped the chain, or it was dropped.

Main statements: the settlement that a chain makes is its verdict (`Recalls.answers_settled`), and
without one the verdict is the fault by which it is halted (`Recalls.answers_halted`).
-/

namespace DurableFlow

namespace Deed

/-- The settlement is what the deeds amount to for a caller who waits. -/
structure Answers (T : List Deed) (s : Settlement) : Prop where
  /-- The chain ran past its last step with this output, and the bus accepted the news. -/
  completed : ∀ inst output, s = .ok ⟨inst, .completed, output⟩ ↔
    .passed output ∈ T ∧ ∃ workflow, .published ⟨inst, workflow, .completed⟩ ∈ T
  /-- A step asked to wait, its position was saved, and the bus accepted the news. -/
  waiting : ∀ inst, s = .ok ⟨inst, .waiting, none⟩ ↔
    ∃ i message workflow, .returned i (.wait message) ∈ T ∧ .saved i ∈ T ∧
      .published ⟨inst, workflow, .waiting i message⟩ ∈ T
  /-- A step failed of this cause. -/
  failed : ∀ cause, s = .error (.stepFailed cause) ↔ ∃ i, .returned i (.failure cause) ∈ T
  dropped : .dropped ∈ T → s = .error (.fault .cancelled)
  halted : ∀ fault, .halted fault ∈ T → s = .error (.fault fault)
  /-- There is no other settlement. -/
  cases : (∃ inst output, s = .ok ⟨inst, .completed, output⟩) ∨
    (∃ inst, s = .ok ⟨inst, .waiting, none⟩) ∨ (∃ cause, s = .error (.stepFailed cause)) ∨
      .dropped ∈ T ∨ ∃ fault, .halted fault ∈ T

/-- The settlement is what a caller has to be told after the deeds: that of the chain, unless the
chain was cut off. -/
def Verdict (T : List Deed) (s : Settlement) : Prop :=
  (.lost ∈ T → s = .error (.fault .cancelled)) ∧ (.lost ∉ T → Answers T s)

theorem Answers.verdict {T : List Deed} {s : Settlement} (h : Answers T s) (hT : .lost ∉ T) :
    Verdict T s :=
  ⟨fun hlost => absurd hlost hT, fun _ => h⟩

theorem verdict_of_lost {T : List Deed} (hT : .lost ∈ T) : Verdict T (.error (.fault .cancelled)) :=
  ⟨fun _ => rfl, fun hlost => absurd hT hlost⟩

/-- Whether a deed may matter to a verdict. -/
def isDecisive : Deed → Bool
  | .passed _ | .saved _ | .dropped | .halted _ | .lost => true
  | .returned _ (.wait _) | .returned _ (.failure _) => true
  | .published notice => notice.topic ≠ .delayed
  | _ => false

/-- The verdict depends on what has been done that matters to it. -/
theorem Verdict.congr {T T' : List Deed} {s : Settlement} (h : Verdict T s)
    (hT : ∀ d, d.isDecisive = true → (d ∈ T' ↔ d ∈ T)) : Verdict T' s := by
  refine ⟨fun hin => h.1 ((hT _ rfl).1 hin), fun hnot => ?_⟩
  have hs := h.2 (mt (hT _ rfl).2 hnot)
  refine ⟨fun inst output => ?_, fun inst => ?_, fun cause => ?_, fun hd => ?_, fun fault hf => ?_,
    ?_⟩
  · rw [hs.completed, hT (.passed output) rfl]
    exact and_congr_right fun _ => exists_congr fun workflow => (hT _ (by rfl)).symm
  · rw [hs.waiting]
    refine exists_congr fun i => exists_congr fun message => exists_congr fun workflow => ?_
    rw [hT (.returned i (.wait message)) rfl, hT (.saved i) rfl, hT (.published _) (by rfl)]
  · rw [hs.failed]
    exact exists_congr fun i => (hT _ rfl).symm
  · exact hs.dropped ((hT _ rfl).1 hd)
  · exact hs.halted fault ((hT _ rfl).1 hf)
  · rw [hT .dropped rfl]
    simp only [fun fault => hT (.halted fault) rfl]
    exact hs.cases

/-- Nobody is told that an instance is delayed, and a failure is no result. -/
theorem Verdict.status_eq {T : List Deed} {result : RunResult} (h : Verdict T (.ok result)) :
    result.status = .completed ∨ result.status = .waiting := by
  by_cases hlost : .lost ∈ T
  · cases h.1 hlost
  · have hanswers := h.2 hlost
    obtain ⟨inst, output, heq⟩ | ⟨inst, heq⟩ | ⟨cause, heq⟩ | hdropped | ⟨fault, hhalted⟩ :=
      hanswers.cases
    · cases heq
      exact .inl rfl
    · cases heq
      exact .inr rfl
    · cases heq
    · cases hanswers.dropped hdropped
    · cases hanswers.halted fault hhalted

/-- There is one verdict on what a chain has done. -/
theorem Verdict.unique {T : List Deed} {s s' : Settlement} (h : Verdict T s) (h' : Verdict T s') :
    s = s' := by
  by_cases hlost : .lost ∈ T
  · rw [h.1 hlost, h'.1 hlost]
  · have hs := h.2 hlost
    have hs' := h'.2 hlost
    obtain ⟨inst, output, rfl⟩ | ⟨inst, rfl⟩ | ⟨cause, rfl⟩ | hdropped | ⟨fault, hhalted⟩ := hs.cases
    · exact ((hs'.completed inst output).2 ((hs.completed inst output).1 rfl)).symm
    · exact ((hs'.waiting inst).2 ((hs.waiting inst).1 rfl)).symm
    · exact ((hs'.failed cause).2 ((hs.failed cause).1 rfl)).symm
    · rw [hs.dropped hdropped, hs'.dropped hdropped]
    · rw [hs.halted fault hhalted, hs'.halted fault hhalted]

/-- A caller is told of a cancellation if that has stopped the chain, or if the chain is no more. -/
theorem Verdict.cancelled_cases {T : List Deed} (h : Verdict T (.error (.fault .cancelled))) :
    .lost ∈ T ∨ .dropped ∈ T ∨ .halted .cancelled ∈ T := by
  by_cases hlost : .lost ∈ T
  · exact .inl hlost
  · have hanswers := h.2 hlost
    obtain ⟨inst, output, heq⟩ | ⟨inst, heq⟩ | ⟨cause, heq⟩ | hdropped | ⟨fault, hhalted⟩ :=
      hanswers.cases
    · cases heq
    · cases heq
    · cases heq
    · exact .inr (.inl hdropped)
    · cases hanswers.halted fault hhalted
      exact .inr (.inr hhalted)

/-- A deed that may belong to a complete round. -/
def IsPassing : Deed → Prop
  | .passed _ | .returned _ (.wait _) | .returned _ (.failure _) => False
  | .published notice => notice.topic = .delayed
  | _ => True

/-- Whether what the caller is told is decided by this deed. -/
def isFinal : Deed → Bool
  | .settled _ | .stopped _ | .halted _ | .panicked | .dropped | .lost => true
  | _ => false

end Deed

/-- A plan after which the chain goes on is that of a step that neither waits nor fails. -/
theorem Plan.passing_of_next {d : Definition} {c : Context} {i j : Nat} {now : Instant}
    {o : Outcome} {es : List Effect} {turn : Turn} (h : Plan.ofOutcome d c i now o = .ok ⟨es, turn⟩)
    (hnext : turn.next? = some j) : (Deed.returned i o).IsPassing := by
  cases o with
  | wait message => cases h; cases hnext
  | failure cause => cases h; cases hnext
  | _ => trivial

/-- The deeds of complete rounds. -/
theorem Trail.passing {d : Definition} {p j : Nat} {T : List Deed} (h : Trail d p T j) :
    ∀ x ∈ T, x.IsPassing := by
  induction h with
  | start =>
    intro x hx
    rw [List.mem_singleton.1 hx]
    trivial
  | @round T i j o now es turn context c h hr hplan hnext ih =>
    have hannounced := (h.round hr hplan hnext).announcements
    intro x hx
    have hpublished : ∀ n, x = .published n → x.IsPassing := by
      rintro n rfl
      exact hannounced n (List.mem_filterMap.2 ⟨_, hx, rfl⟩)
    rcases List.mem_append.1 hx with hx | hx
    · exact ih x hx
    rcases List.mem_cons.1 hx with rfl | hx
    · trivial
    rcases List.mem_cons.1 hx with rfl | hx
    · exact Plan.passing_of_next hplan hnext
    rcases List.mem_append.1 hx with hx | hx
    · obtain ⟨effect, -, rfl⟩ := List.mem_map.1 hx
      cases effect with
      | publish news => exact hpublished _ rfl
      | save next => trivial
      | settle s => trivial
    · cases turn with
      | suspend next due =>
        rw [List.mem_singleton.1 hx]
        trivial
      | arrive index => cases hx
      | stop result => cases hx

/-- While a chain rests, its deeds are those of complete rounds. -/
theorem Recalls.passing_of_resting {d : Definition} {p₀ p next : Nat} {T : List Deed} {c : Chain}
    (h : Recalls d p₀ T c (.resting next) p) : ∀ x ∈ T, x.IsPassing := by
  obtain ⟨T₀, i, r, rfl, htrail, hround⟩ := h
  cases hround with
  | resting =>
    rw [List.append_nil]
    exact htrail.passing

namespace Deed

variable {T₀ : List Deed} {i : Nat}

/-- A deed that does not tell how the instance has ended. -/
def IsMild (x : Deed) : Prop :=
  (∀ i cause, x ≠ .returned i (.failure cause)) ∧ ∀ n, x = .published n → n.topic = .delayed

theorem IsPassing.isMild {x : Deed} (h : x.IsPassing) : x.IsMild := by
  refine ⟨?_, ?_⟩
  · rintro i cause rfl
    exact h
  · rintro n rfl
    exact h

theorem isMild_executed (i : Nat) : (Deed.executed i).IsMild := ⟨by simp, by simp⟩

theorem isMild_saved (i : Nat) : (Deed.saved i).IsMild := ⟨by simp, by simp⟩

theorem isMild_delayed (c : Chain) (next : Nat) (due : Instant) :
    (Deed.published (c.notice (.delayed next due))).IsMild :=
  IsPassing.isMild rfl

theorem isMild_returned (i : Nat) {o : Outcome} (ho : ∀ cause, o ≠ .failure cause) :
    (Deed.returned i o).IsMild := by
  refine ⟨?_, by simp⟩
  intro j cause h
  exact ho cause (Deed.returned.inj h).2

/-- The fault that stops a chain by this deed. -/
def fault? : Deed → Option Fault
  | .dropped => some .cancelled
  | .halted fault => some fault
  | _ => none

/-- If nothing but delays was published and no step has failed, a fault decides. -/
theorem answers_of_fault {T : List Deed} {d : Deed} {fault : Fault} (hT : ∀ x ∈ T, x.IsMild)
    (hfinal : ∀ x ∈ T, x.isFinal = false) (hd : d.fault? = some fault) :
    Answers (T ++ [d]) (.error (.fault fault)) := by
  have hmem : ∀ {x : Deed}, x ∈ T ++ [d] → x.fault? = none → x ∈ T := by
    intro x hx hnone
    rcases List.mem_append.1 hx with hx | hx
    · exact hx
    · rw [List.mem_singleton.1 hx, hd] at hnone
      cases hnone
  have hlast : ∀ {x : Deed}, x ∈ T ++ [d] → x.isFinal = true → x = d := by
    intro x hx htrue
    rcases List.mem_append.1 hx with hx | hx
    · rw [hfinal x hx] at htrue
      cases htrue
    · exact List.mem_singleton.1 hx
  refine ⟨?_, ?_, ?_, ?_, ?_, ?_⟩
  · refine fun inst output => ⟨by simp, ?_⟩
    rintro ⟨-, workflow, h⟩
    cases (hT _ (hmem h rfl)).2 _ rfl
  · refine fun inst => ⟨by simp, ?_⟩
    rintro ⟨i, message, workflow, -, -, h⟩
    cases (hT _ (hmem h rfl)).2 _ rfl
  · refine fun cause => ⟨by simp, ?_⟩
    rintro ⟨i, h⟩
    exact absurd rfl ((hT _ (hmem h rfl)).1 i cause)
  · intro h
    obtain rfl := hlast h rfl
    cases hd
    rfl
  · intro f h
    obtain rfl := hlast h rfl
    cases hd
    rfl
  · cases d with
    | dropped => exact .inr (.inr (.inr (.inl (by simp))))
    | halted f => exact .inr (.inr (.inr (.inr ⟨f, by simp⟩)))
    | _ => cases hd

/-- If the deeds behind those of complete rounds amount to a settlement, all of them do. -/
theorem Answers.append_left {T₀ r : List Deed} {s : Settlement} (h : Answers r s)
    (hT₀ : ∀ x ∈ T₀, x.IsPassing) (hfinal : ∀ x ∈ T₀, x.isFinal = false)
    (hsaved : ∀ i message, .returned i (.wait message) ∈ r → .saved i ∈ r) :
    Answers (T₀ ++ r) s := by
  have hmem : ∀ {x : Deed}, x ∈ T₀ ++ r → ¬ x.IsPassing → x ∈ r := by
    intro x hx hnot
    rcases List.mem_append.1 hx with hx | hx
    · exact absurd (hT₀ x hx) hnot
    · exact hx
  have hlast : ∀ {x : Deed}, x ∈ T₀ ++ r → x.isFinal = true → x ∈ r := by
    intro x hx htrue
    rcases List.mem_append.1 hx with hx | hx
    · rw [hfinal x hx] at htrue
      cases htrue
    · exact hx
  have hmore : ∀ {x : Deed}, x ∈ r → x ∈ T₀ ++ r := List.mem_append_right _
  refine ⟨?_, ?_, ?_, ?_, ?_, ?_⟩
  · intro inst output
    rw [h.completed]
    refine ⟨fun ⟨hpassed, workflow, hnews⟩ => ⟨hmore hpassed, workflow, hmore hnews⟩, ?_⟩
    rintro ⟨hpassed, workflow, hnews⟩
    exact ⟨hmem hpassed id, workflow, hmem hnews nofun⟩
  · intro inst
    rw [h.waiting]
    constructor
    · rintro ⟨i, message, workflow, hwait, hsaved, hnews⟩
      exact ⟨i, message, workflow, hmore hwait, hmore hsaved, hmore hnews⟩
    · rintro ⟨i, message, workflow, hwait, -, hnews⟩
      have hreturned := hmem hwait id
      exact ⟨i, message, workflow, hreturned, hsaved i message hreturned, hmem hnews nofun⟩
  · intro cause
    rw [h.failed]
    refine ⟨fun ⟨i, hi⟩ => ⟨i, hmore hi⟩, fun ⟨i, hi⟩ => ⟨i, hmem hi id⟩⟩
  · exact fun hd => h.dropped (hlast hd rfl)
  · exact fun fault hf => h.halted fault (hlast hf rfl)
  · obtain hcase | hcase | hcase | hcase | ⟨fault, hcase⟩ := h.cases
    · exact .inl hcase
    · exact .inr (.inl hcase)
    · exact .inr (.inr (.inl hcase))
    · exact .inr (.inr (.inr (.inl (hmore hcase))))
    · exact .inr (.inr (.inr (.inr ⟨fault, hmore hcase⟩)))

end Deed

namespace Deed

/-- The deeds of a step that asks to wait. -/
theorem answers_waiting (i : Nat) (message inst workflow : String) :
    Answers [.executed i, .returned i (.wait message), .saved i,
        .published ⟨inst, workflow, .waiting i message⟩,
        .settled (.ok ⟨inst, .waiting, none⟩)] (.ok ⟨inst, .waiting, none⟩) where
  completed _ _ := by simp
  waiting inst' := by
    constructor
    · intro h
      cases h
      exact ⟨i, message, workflow, by simp⟩
    · rintro ⟨j, message', workflow', -, -, h⟩
      simp at h
      obtain ⟨rfl, -⟩ := h
      rfl
  failed _ := by simp
  dropped h := by simp at h
  halted _ h := by simp at h
  cases := .inr (.inl ⟨inst, rfl⟩)

/-- The deeds of a step that fails. -/
theorem answers_failed (i : Nat) (cause : Cause) :
    Answers [.executed i, .returned i (.failure cause), .settled (.error (.stepFailed cause))]
      (.error (.stepFailed cause)) where
  completed _ _ := by simp
  waiting _ := by simp
  failed cause' := by
    constructor
    · intro h
      cases h
      exact ⟨i, by simp⟩
    · rintro ⟨j, h⟩
      simp at h
      obtain ⟨-, rfl⟩ := h
      rfl
  dropped h := by simp at h
  halted _ h := by simp at h
  cases := .inr (.inr (.inl ⟨cause, rfl⟩))

/-- The deeds of a chain that runs past its last step. -/
theorem answers_completed (inst workflow : String) (output : Option Json) :
    Answers [.passed output, .published ⟨inst, workflow, .completed⟩,
      .settled (.ok ⟨inst, .completed, output⟩)] (.ok ⟨inst, .completed, output⟩) where
  completed inst' output' := by
    constructor
    · intro h
      cases h
      exact ⟨by simp, workflow, by simp⟩
    · rintro ⟨hpassed, workflow', h⟩
      simp at h hpassed
      rw [h.1, hpassed]
  waiting _ := by simp
  failed _ := by simp
  dropped h := by simp at h
  halted _ h := by simp at h
  cases := .inl ⟨inst, output, rfl⟩

end Deed

section

variable {D : Definition} {p₀ p i : Nat} {T r : List Deed} {c : Chain}

/-- A chain settles in its last round, by what the round amounts to. -/
theorem Round.answers_settled {s : Settlement} {es : List Effect} {turn : Turn}
    (h : Round D i r c (.acting ⟨.settle s :: es, turn⟩) p) :
    (∃ result, turn = .stop result) ∧ Deed.Answers (r ++ [.settled s]) s ∧
      ∀ j message, .returned j (.wait message) ∈ r ++ [.settled s] →
        .saved j ∈ r ++ [.settled s] := by
  cases h with
  | acting hr hplan =>
    obtain ⟨hturn, ⟨message, rfl, rfl, rfl⟩ | ⟨cause, rfl, rfl, rfl⟩⟩ := Plan.settle_cases hplan
    · refine ⟨hturn, Deed.answers_waiting i message c.inst c.definition.name, ?_⟩
      intro j message' hj
      simp [Effect.deed] at hj ⊢
      exact hj.1
    · refine ⟨hturn, Deed.answers_failed i cause, ?_⟩
      intro j message' hj
      simp at hj
  | ending hi hplan =>
    obtain ⟨hturn, rfl, rfl⟩ := Plan.settle_atEnd hplan
    refine ⟨hturn, Deed.answers_completed c.inst c.definition.name c.context.output, ?_⟩
    intro j message' hj
    simp [Effect.deed] at hj

/-- **A chain settles what its deeds amount to**, and then it stops. -/
theorem Recalls.answers_settled {s : Settlement} {es : List Effect} {turn : Turn}
    (h : Recalls D p₀ T c (.acting ⟨.settle s :: es, turn⟩) p)
    (hfinal : ∀ x ∈ T, x.isFinal = false) :
    (∃ result, turn = .stop result) ∧ Deed.Answers (T ++ [.settled s]) s := by
  obtain ⟨T₀, i, r, rfl, htrail, hround⟩ := h
  obtain ⟨hturn, hanswers, hsaved⟩ := hround.answers_settled
  rw [List.append_assoc]
  exact ⟨hturn, hanswers.append_left htrail.passing
    (fun x hx => hfinal x (List.mem_append_left _ hx)) hsaved⟩

/-- A chain that is about to stop has settled. -/
theorem Round.settled_of_stop {result : RunResult}
    (h : Round D i r c (.acting ⟨[], .stop result⟩) p) : ∃ s, .settled s ∈ r := by
  cases h with
  | @acting _ o now done _ _ context hr hplan =>
    rw [List.append_nil] at hplan
    obtain ⟨message, rfl, rfl, rfl⟩ | ⟨cause, rfl, rfl, rfl⟩ := Plan.stop_cases hplan
    · exact ⟨.ok (Plan.resultOf c.context .waiting), by simp [Effect.deed]⟩
    · exact ⟨.error (.stepFailed cause), by simp [Effect.deed]⟩
  | ending hi hplan =>
    rw [List.append_nil] at hplan
    cases hplan
    exact ⟨.ok ⟨c.inst, .completed, c.context.output⟩, by simp [Effect.deed]; rfl⟩

/-- A round that is halted before it has settled has published nothing but a delay. -/
theorem Round.mild {fault : Fault} (h : Round D i r c (.halting fault) p)
    (hfinal : ∀ x ∈ r, x.isFinal = false) : ∀ x ∈ r, x.IsMild := by
  have none : ∀ x ∈ ([] : List Deed), x.IsMild := by simp
  have cons : ∀ {y : Deed} {rest : List Deed}, y.IsMild → (∀ x ∈ rest, x.IsMild) →
      ∀ x ∈ y :: rest, x.IsMild := fun hy hrest => List.forall_mem_cons.2 ⟨hy, hrest⟩
  -- The deeds of a round whose step has not failed.
  have returned : ∀ {o : Outcome} {rest : List Deed}, (∀ cause, o ≠ .failure cause) →
      (∀ x ∈ rest, x.IsMild) → ∀ x ∈ .executed i :: .returned i o :: rest, x.IsMild :=
    fun ho hrest => cons (Deed.isMild_executed i) (cons (Deed.isMild_returned i ho) hrest)
  cases h with
  | withdrawn => exact none
  | aborted hi => exact cons (Deed.isMild_executed _) none
  | @misjumped _ o now fault context hr hplan =>
    obtain ⟨label, rfl, -⟩ := Plan.error_cases hplan
    exact returned (by simp) none
  | @unsaved r _ _ n _ _ _ hround =>
    obtain ⟨rfl, o, rfl, hsaved⟩ := hround.saving
    refine returned ?_ (cons ⟨by simp, by simp⟩ none)
    rintro cause rfl
    cases hsaved
  | refused hround =>
    cases hround with
    | acting hr hplan =>
      obtain ⟨duration, due, rfl, rfl, rfl, -⟩ | ⟨message, rfl, rfl, rfl, -⟩ |
        ⟨cause, s, rfl, rfl, rfl, -⟩ := Plan.publish_cases hplan
      · exact returned (by simp) (cons (Deed.isMild_saved _) (cons ⟨by simp, by simp⟩ none))
      · exact returned (by simp) (cons (Deed.isMild_saved _) (cons ⟨by simp, by simp⟩ none))
      · cases hfinal (.settled s) (by simp [Effect.deed])
    | ending hi hplan =>
      obtain ⟨rfl, rfl⟩ := Plan.publish_atEnd hplan
      exact cons ⟨by simp, by simp⟩ (cons ⟨by simp, by simp⟩ none)
  | unscheduled hround =>
    cases hround with
    | @acting _ o _ _ _ _ context hr hplan =>
      rw [List.append_nil] at hplan
      obtain ⟨duration, rfl, rfl, rfl⟩ := Plan.suspend_cases hplan
      exact returned (by simp) (cons (Deed.isMild_saved _)
        (cons (Deed.isMild_delayed _ _ _) (cons ⟨by simp, by simp⟩ none)))
    | ending hi hplan =>
      rw [List.append_nil] at hplan
      cases hplan

/-- **A chain that a fault has halted before it settled** has nothing else to tell. -/
theorem Recalls.answers_halted {fault : Fault} (h : Recalls D p₀ T c (.halting fault) p)
    (hfinal : ∀ x ∈ T, x.isFinal = false) :
    Deed.Answers (T ++ [.halted fault]) (.error (.fault fault)) := by
  obtain ⟨T₀, i, r, rfl, htrail, hround⟩ := h
  refine Deed.answers_of_fault ?_ hfinal rfl
  intro x hx
  rcases List.mem_append.1 hx with hx | hx
  · exact (htrail.passing x hx).isMild
  · exact hround.mild (fun y hy => hfinal y (List.mem_append_right _ hy)) x hx

/-- A chain that is dropped while it rests has nothing to tell. -/
theorem Recalls.answers_dropped {next : Nat} (h : Recalls D p₀ T c (.resting next) p)
    (hfinal : ∀ x ∈ T, x.isFinal = false) :
    Deed.Answers (T ++ [.dropped]) (.error (.fault .cancelled)) :=
  Deed.answers_of_fault (fun x hx => (h.passing_of_resting x hx).isMild) hfinal rfl

end

end DurableFlow
