import DurableFlow.Proofs.Settlement.KeptPromises
import DurableFlow.Proofs.Families.Members

/-!
# Settlement of callers who wait

A call that waits for an instance is told once how the instance ended, and what it is told is what
became of the instance: however often the chain was laid to rest on its way, and whatever failed,
the verdict on what the chain did is what the call returns (`Engine.IsNew.settlement`). To be told
is to return: the task of the call ends with the settlement, or the step that launched the call goes
on with it (`Move.Returns`).
-/

namespace DurableFlow

/-- Whether a panic has torn the chain down. -/
def Deed.isPanic : Deed → Bool
  | .panicked => true
  | _ => false

/-- Whether a frame takes on a chain within a call that waits for the completion. -/
def Frame.drives (c : CompletionId) : Frame → Bool
  | .driving origin _ _ => origin.receiver? == some c
  | _ => false

/-- A move by which a call returns a settlement: the task ends with that, or the step below the call
goes on with that. -/
inductive Move.Returns (e : Engine) (t : Task) (s : Settlement) : List Frame → Move → Prop
  | ends : Returns e t s [] (.over e (.returned s))
  | goesOn {o chain index next below} :
      Returns e t s (.driving o chain (.calling index next) :: below)
        (.on e (t.doing (.driving o chain (.inside index (next (.settled s))) :: below)))

namespace Engine

variable {e : Engine} {c : CompletionId} {as : List Act}

/-- What is answered to a call is what the call returns. -/
theorem returns_answer (t : Task) {below : List Frame}
    (hcalling : ∀ g ∈ below, g.isCalling = true) (s : Settlement) :
    (e.answer t below (.settled s)).Returns e t s below := by
  cases below with
  | nil => exact .ends
  | cons g below =>
    cases g with
    | driving o chain stage =>
      cases stage with
      | calling index next => exact .goesOn
      | _ => cases hcalling _ List.mem_cons_self
    | _ => cases hcalling _ List.mem_cons_self

/-- A call whose chain is halted before it has settled returns the fault. -/
theorem Sound.returns_halting {S : Standard} (h : e.Sound S) {t : Task} (ht : t ∈ e.tasks)
    (hp : t.parked = false) {o : Origin} {chain : Chain} {fault : Fault} {below : List Frame}
    (hframes : t.frames = .driving o chain (.halting fault) :: below) (ho : o ≠ .continuation)
    (hunsettled : ∀ k, o.receiver? = some k → e.settled.get? k = none) :
    (e.move t).Returns e t (.error (.fault fault)) below := by
  have hmove : e.move t = e.answer t below (.settled (.error (.fault fault))) := by
    cases o with
    | call r receiver =>
      cases receiver with
      | none => simp [move_driving hp hframes, moveDriving, halt]
      | some k => simp [move_driving hp hframes, moveDriving, halt, hunsettled k rfl]
    | direct => simp [move_driving hp hframes, moveDriving, halt]
    | continuation => exact absurd rfl ho
  rw [hmove]
  exact returns_answer t (calling_of_sound (h.tasks t ht) hframes) _

/-- What calls are told in the course of a history. -/
def tellings (e : Engine) : List Act → List (CompletionId × Option Reply)
  | [] => []
  | a :: as => e.replies a ++ (e.act a).tellings as

/-- What the call that waits for a completion is told in the course of a history. -/
def answers (e : Engine) (c : CompletionId) (as : List Act) : List (Option Reply) :=
  Reply.to c (e.tellings as)

theorem none_notMem_answers (h : (e.answers c as).all Option.isSome = true) :
    none ∉ e.answers c as :=
  fun hnone => Bool.false_ne_true (List.all_eq_true.1 h none hnone)

/-- In the course of a history, the call that waits for a completion returned a settlement: it was
the innermost frame of a task, which by its next move ended with the settlement, as is on record, or
went on below the call with it. -/
def Returned (e : Engine) (c : CompletionId) (s : Settlement) (as : List Act) : Prop :=
  ∃ before after t f below, as = before ++ .advance t.number :: after ∧
    t ∈ (e.after before).tasks ∧ t.frames = f :: below ∧ f.receiver? = some c ∧
    ((e.after before).move t).Returns (e.after before) t s below ∧
    (below = [] → (t.number, .returned s) ∈ (e.after as).endings)

/-- Whether the chain that owes a completion, or did before it settled, is still on its way. -/
def isUnderway (e : Engine) (c : CompletionId) : Bool :=
  e.isOwed c || e.tasks.any fun t => t.frames.any (Frame.drives c)

/-- A call is told by answering the frame below it. -/
theorem answer_of_told {t : Task} {reply : Reply} (h : (c, some reply) ∈ e.told t) :
    ∃ f below, t.frames = f :: below ∧ f.receiver? = some c ∧
      e.move t = e.answer t below reply := by
  have hsevered : ∀ fs, (c, some reply) ∉ severed fs := by
    intro fs hmem
    obtain ⟨k, -, heq⟩ := List.mem_map.1 hmem
    cases (Prod.mk.inj heq).2
  cases hp : t.parked with
  | true =>
    simp only [told, hp, if_true] at h
    split at h
    · exact absurd h (hsevered _)
    · cases h
  | false =>
    have hmove : e.move t = e.moveTop t := move_of_unparked hp
    rw [hmove]
    simp only [told, hp, Bool.false_eq_true, if_false] at h
    split at h
    · rename_i hframes
      cases List.mem_singleton.1 h
      refine ⟨_, _, hframes, rfl, ?_⟩
      simp only [moveTop, hframes, moveDriving, halt]
    · rename_i hframes
      cases List.mem_singleton.1 h
      refine ⟨_, _, hframes, rfl, ?_⟩
      simp only [moveTop, hframes, moveDriving, moveInside, tearDown]
    · rename_i hframes
      split at h
      · rename_i hsettled
        cases List.mem_singleton.1 h
        refine ⟨_, _, hframes, rfl, ?_⟩
        simp only [moveTop, hframes, hsettled]
      · rename_i hsettled
        split at h
        · cases h
        · rename_i howed
          cases List.mem_singleton.1 h
          refine ⟨_, _, hframes, rfl, ?_⟩
          simp only [moveTop, hframes, hsettled, refuse, if_neg howed]
    · cases h

theorem tellings_concat (e : Engine) (as : List Act) (a : Act) :
    e.tellings (as ++ [a]) = e.tellings as ++ (e.after as).replies a := by
  induction as generalizing e with
  | nil => simp [tellings]
  | cons b as ih => simp only [List.cons_append, tellings, ih, after_cons, List.append_assoc]

/-- What a call is told in the course of a history, it is told by an act. -/
theorem exists_replies {reply : CompletionId × Option Reply} (h : reply ∈ e.tellings as) :
    ∃ before a after, as = before ++ a :: after ∧ reply ∈ (e.after before).replies a := by
  induction as generalizing e with
  | nil => cases h
  | cons a as ih =>
    obtain hfirst | hlater := List.mem_append.1 h
    · exact ⟨[], a, as, rfl, hfirst⟩
    · obtain ⟨before, b, after, rfl, hreply⟩ := ih hlater
      exact ⟨a :: before, b, after, rfl, hreply⟩

/-- Who is told something has its task taken on. -/
theorem told_of_replies {a : Act} {reply : Reply} (h : (c, some reply) ∈ e.replies a) :
    ∃ t, a = .advance t.number ∧ t ∈ e.tasks ∧ (c, some reply) ∈ e.told t := by
  cases a with
  | advance n =>
    simp only [replies] at h
    split at h
    · rename_i t ht
      obtain ⟨hmem, rfl⟩ := task?_eq_some ht
      exact ⟨t, rfl, hmem, h⟩
    · cases h
  | cut n =>
    simp only [replies] at h
    split at h
    · obtain ⟨k, -, heq⟩ := List.mem_map.1 h
      cases (Prod.mk.inj heq).2
    · cases h
  | _ => cases h

/-- **A call that has been told a settlement has returned it.** -/
theorem IsNew.returned_of_answer (h : e.IsNew) {s : Settlement}
    (hreply : some (.settled s) ∈ e.answers c as) : e.Returned c s as := by
  obtain ⟨⟨k, reply⟩, hmem, rfl⟩ := List.mem_map.1 hreply
  obtain ⟨htelling, hk⟩ := List.mem_filter.1 hmem
  obtain rfl := beq_iff_eq.1 hk
  obtain ⟨before, a, after, rfl, hreplies⟩ := exists_replies htelling
  obtain ⟨t, rfl, ht, htold⟩ := told_of_replies hreplies
  obtain ⟨f, below, hframes, hreceiver, hmove⟩ := answer_of_told htold
  have hsound : (e.after before).Sound .any := (h.sound .any).after fun a _ => a.meets_any
  have hreturns : ((e.after before).move t).Returns (e.after before) t s below := by
    rw [hmove]
    exact returns_answer t (calling_of_sound (hsound.tasks t ht) hframes) s
  refine ⟨before, after, t, f, below, rfl, ht, hframes, hreceiver, hreturns, ?_⟩
  rintro rfl
  rw [after_append, after_cons]
  have hacted : ((e.after before).act (.advance t.number)).Sound .any :=
    (hsound.act (Act.meets_any _)).1
  refine (hacted.endings_after fun a _ => a.meets_any).subset ?_
  rw [hsound.endings_over ht hmove]
  exact List.mem_append_right _ (List.mem_singleton_self _)

theorem tale_concat (e : Engine) (k : CompletionId) (as : List Act) (a : Act) :
    e.tale k (as ++ [a]) = e.tale k as ++ Deed.owing k ((e.after as).deeds a) := by
  rw [tale, chronicle_concat, Deed.of_append]
  rfl

theorem answers_concat (e : Engine) (k : CompletionId) (as : List Act) (a : Act) :
    e.answers k (as ++ [a]) = e.answers k as ++ Reply.to k ((e.after as).replies a) := by
  rw [answers, tellings_concat, Reply.to_append]
  rfl

/-- **Throughout a history, promises are kept.** -/
theorem IsNew.promise (h : e.IsNew) (c : CompletionId) (as : List Act) :
    Account.Promise c (e.tale c as) (e.answers c as) (e.after as).account := by
  induction as using List.reverseRecOn with
  | nil =>
    have hframes : e.frames = [] := by rw [frames, h.tasks]; rfl
    have hstrands : e.account.strands = 0 := by
      rw [account, accountOf, hframes, h.armed]
      rfl
    have hwaiting : e.account.waiting = 0 := by
      rw [account, accountOf, hframes]
      rfl
    refine .unmade rfl rfl ?_ ?_ ?_
    · rw [after_nil, Account.parties, hstrands]
      rfl
    · rw [after_nil, hwaiting, Multiset.count_zero]
    · show e.settled.get? c = none
      rw [h.settled]
      rfl
  | append_singleton as a ih =>
    have hsound : (e.after as).Sound .any := (h.sound .any).after fun a _ => a.meets_any
    obtain ⟨-, hpasses⟩ := hsound.act a.meets_any
    rw [tale_concat, answers_concat, after_concat]
    exact ih.passes hpasses

/-- A chain is on its way for as long as a strand has to do with its completion. -/
theorem isUnderway_eq_false_iff : e.isUnderway c = false ↔ e.account.parties c = 0 := by
  constructor
  · intro h
    obtain ⟨howed, hdriven⟩ := Bool.or_eq_false_iff.1 h
    refine Multiset.filter_eq_nil.2 fun s hs hparty => ?_
    obtain howner | hreceiver := hparty
    · exact completion_ne_of_not_isOwed howed s hs howner
    · rcases Multiset.mem_add.1 hs with hs | hs
      · obtain ⟨f, hf, hstrand⟩ := List.mem_filterMap.1 hs
        obtain ⟨t, ht, hft⟩ := List.mem_flatMap.1 hf
        have hnot := List.any_eq_false.1 hdriven t ht
        refine hnot (List.any_eq_true.2 ⟨f, hft, ?_⟩)
        cases f with
        | driving o chain stage =>
          cases hstrand
          exact beq_iff_eq.2 hreceiver
        | _ => cases hstrand
      · obtain ⟨timer, -, rfl⟩ := List.mem_map.1 hs
        cases hreceiver
  · intro h
    have hnone : ∀ s ∈ e.account.strands, ¬ s.IsParty c := Multiset.filter_eq_nil.1 h
    have hframe : ∀ t ∈ e.tasks, ∀ o chain stage, .driving o chain stage ∈ t.frames →
        ¬ Strand.IsParty c ⟨o, chain, stage.phase⟩ := by
      intro t ht o chain stage hft
      refine hnone _ (Multiset.mem_add.2 (.inl ?_))
      exact List.mem_filterMap.2 ⟨_, List.mem_flatMap.2 ⟨t, ht, hft⟩, rfl⟩
    refine Bool.or_eq_false_iff.2 ⟨Bool.or_eq_false_iff.2 ⟨?_, ?_⟩, ?_⟩
    · refine List.any_eq_false.2 fun t ht howes => ?_
      obtain ⟨f, hft, hf⟩ := List.any_eq_true.1 howes
      cases f with
      | driving o chain stage => exact hframe t ht o chain stage hft (.inl (beq_iff_eq.1 hf))
      | _ => cases hf
    · refine List.any_eq_false.2 fun k hk howes => ?_
      obtain ⟨timer, htimer, rfl⟩ := List.mem_map.1 hk
      have hmem : timer.strand ∈ e.account.strands :=
        Multiset.mem_add.2 (.inr (List.mem_map_of_mem htimer))
      exact hnone _ hmem (.inl (beq_iff_eq.1 howes))
    · refine List.any_eq_false.2 fun t ht hdrives => ?_
      obtain ⟨f, hft, hf⟩ := List.any_eq_true.1 hdrives
      cases f with
      | driving o chain stage => exact hframe t ht o chain stage hft (.inr (beq_iff_eq.1 hf))
      | _ => cases hf

/-- A call that waits is the innermost frame of its task. -/
theorem Sound.exists_receiving {S : Standard} (h : e.Sound S) (hc : 0 < e.account.waiting.count c) :
    ∃ t ∈ e.tasks, ∃ r below, t.frames = .receiving r c :: below := by
  have hmem : c ∈ e.account.waiting := Multiset.count_pos.1 hc
  obtain ⟨f, hf, hawaited⟩ := List.mem_filterMap.1 hmem
  obtain ⟨t, ht, hft⟩ := List.mem_flatMap.1 hf
  cases f with
  | receiving r c' =>
    cases hawaited
    refine ⟨t, ht, r, ?_⟩
    cases hframes : t.frames with
    | nil =>
      rw [hframes] at hft
      cases hft
    | cons g below =>
      rw [hframes] at hft
      rcases List.mem_cons.1 hft with rfl | hbelow
      · exact ⟨below, rfl⟩
      · have hcalling := (h.tasks t ht).calling (.receiving r c) (by rw [hframes]; exact hbelow)
        cases hcalling
  | _ => cases hawaited

/-- A task holds a call that waits for the completion, and that returns the settlement as soon as
the task is taken on. -/
def IsTelling (e : Engine) (t : Task) (c : CompletionId) (s : Settlement) : Prop :=
  ∃ r below, t.frames = .receiving r c :: below ∧ e.canMove t = true ∧
    (e.move { t with parked := false }).Returns e { t with parked := false } s below

/-- If what a call waits for is decided, the call is about to be told. -/
theorem Sound.isTelling_of_decided {S : Standard} (h : e.Sound S) {t : Task} (hmem : t ∈ e.tasks)
    {r : RunnerId} {below : List Frame} {s : Settlement}
    (ht : t.frames = .receiving r c :: below) (howed : e.isOwed c = false)
    (hs : e.settled.get? c = some s ∨
      e.settled.get? c = none ∧ s = .error (.fault .cancelled)) : e.IsTelling t c s := by
  have hready : e.isReady t = true := by simp [isReady, ht, howed]
  have hmove : e.move { t with parked := false } =
      e.answer { t with parked := false } below (.settled s) := by
    obtain hsome | ⟨hnone, rfl⟩ := hs
    · simp [move, moveTop, ht, hsome]
    · simp [move, moveTop, ht, hnone, howed, refuse]
  refine ⟨r, below, ht, ?_, ?_⟩
  · simp [canMove, hready]
  · rw [hmove]
    exact returns_answer _ (calling_of_sound (h.tasks t hmem) ht) s

section

variable (h : e.IsNew) (hpanic : ∀ d ∈ e.tale c as, d.isPanic = false)
include h hpanic

/-- A call that waits is told once at most. -/
theorem IsNew.length_answers_le : (e.answers c as).length ≤ 1 := by
  cases h.promise c as with
  | unmade hT hR => simp [hR]
  | owed hp howes =>
    obtain ⟨-, -, hR⟩ | ⟨-, hone, -⟩ := howes.caller
    · simp [hR]
    · omega
  | closing hp hcloses hR => simp [hR]
  | decided hp hdecides =>
    have hone := hdecides.one
    omega
  | panicked hpanicked => cases hpanic _ hpanicked

/-- Once the call has been told, the chain has come to its end, and what the call is told is
decided. -/
theorem IsNew.decides_of_answer {reply : Reply} (hreply : some reply ∈ e.answers c as) :
    (e.after as).isUnderway c = false ∧ ∃ s, reply = .settled s ∧
      (e.after as).account.Decides c (e.tale c as) (e.answers c as) s := by
  cases h.promise c as with
  | unmade hT hR =>
    rw [hR] at hreply
    cases hreply
  | owed hp howes =>
    obtain ⟨-, -, hR⟩ | ⟨-, -, hR⟩ := howes.caller
    · rw [hR] at hreply
      cases hreply
    · cases hR _ hreply
  | closing hp hcloses hR =>
    rw [hR] at hreply
    cases hreply
  | @decided s hp hdecides =>
    obtain hnone | hsome := hdecides.replies _ hreply
    · cases hnone
    · exact ⟨isUnderway_eq_false_iff.2 hp, s, Option.some.inj hsome, hdecides⟩
  | panicked hpanicked => cases hpanic _ hpanicked

/-- What a call is told is the verdict on what the chain did. -/
theorem IsNew.verdict_of_answer {s : Settlement}
    (hreply : some (.settled s) ∈ e.answers c as) : Deed.Verdict (e.tale c as) s := by
  obtain ⟨-, v, heq, hdecides⟩ := h.decides_of_answer hpanic hreply
  cases heq
  exact hdecides.verdict

/-- Once the chain has come to its end, what the call is told is decided. -/
theorem IsNew.decides_of_over (hmade : e.tale c as ≠ [])
    (hover : (e.after as).isUnderway c = false) :
    ∃ s, (e.after as).account.Decides c (e.tale c as) (e.answers c as) s := by
  rw [isUnderway_eq_false_iff] at hover
  cases h.promise c as with
  | unmade hT => exact absurd hT hmade
  | owed hp =>
    rw [hover] at hp
    cases congrArg Multiset.card hp
  | closing hp =>
    rw [hover] at hp
    cases congrArg Multiset.card hp
  | @decided s hp hdecides => exact ⟨s, hdecides⟩
  | panicked hpanicked => cases hpanic _ hpanicked

/-- Once the chain has come to its end, the call has been told, or cut off, or is about to be told
the verdict. -/
theorem IsNew.answered_or_telling (hmade : e.tale c as ≠ [])
    (hover : (e.after as).isUnderway c = false) :
    (∃ x, e.answers c as = [x]) ∨ e.answers c as = [] ∧
      ∃ s, Deed.Verdict (e.tale c as) s ∧
        ∃ t ∈ (e.after as).tasks, (e.after as).IsTelling t c s := by
  obtain ⟨s, hdecides⟩ := h.decides_of_over hpanic hmade hover
  have hone := hdecides.one
  cases hanswers : e.answers c as with
  | cons x rest =>
    rw [hanswers, List.length_cons] at hone
    have hrest : rest = [] := List.length_eq_zero_iff.1 (by omega)
    subst hrest
    exact .inl ⟨x, rfl⟩
  | nil =>
    rw [hanswers, List.length_nil] at hone
    have hpos : 0 < (e.after as).account.waiting.count c := by omega
    have hsound : (e.after as).Sound .any := (h.sound .any).after fun a _ => a.meets_any
    obtain ⟨t, ht, r, below, hframes⟩ := hsound.exists_receiving hpos
    have howed : (e.after as).isOwed c = false :=
      (Bool.or_eq_false_iff.1 hover).1
    exact .inr ⟨rfl, s, hdecides.verdict, t, ht,
      hsound.isTelling_of_decided ht hframes howed (hdecides.waiting hpos)⟩

end

/-- **A call that waits is told once, and told the truth.** Let no step of its chain panic. The call
is told at most once, and not before the chain has come to its end; what it is told is the verdict
on what the chain did, and it is never that the instance is delayed, nor is a failure a result; and
what it is told, it returns. Once the chain has come to its end, the call has been told, unless it
was cut off, or it returns by the next move of its task. -/
theorem IsNew.settlement (h : e.IsNew) (hpanic : ∀ d ∈ e.tale c as, d.isPanic = false) :
    (e.answers c as).length ≤ 1 ∧
    (∀ reply, some reply ∈ e.answers c as → (e.after as).isUnderway c = false ∧
      ∃ s, reply = .settled s ∧ Deed.Verdict (e.tale c as) s ∧
        (∀ result, s = .ok result → result.status = .completed ∨ result.status = .waiting) ∧
          e.Returned c s as) ∧
    (e.tale c as ≠ [] → (e.after as).isUnderway c = false →
      (∃ x, e.answers c as = [x]) ∨ e.answers c as = [] ∧
        ∃ s, Deed.Verdict (e.tale c as) s ∧
          ∃ t ∈ (e.after as).tasks, (e.after as).IsTelling t c s) := by
  refine ⟨h.length_answers_le hpanic, fun reply hreply => ?_, h.answered_or_telling hpanic⟩
  obtain ⟨hover, s, rfl, hdecides⟩ := h.decides_of_answer hpanic hreply
  refine ⟨hover, s, rfl, hdecides.verdict, ?_, h.returned_of_answer hreply⟩
  rintro result rfl
  exact hdecides.verdict.status_eq

end Engine

namespace Greeting

/-- The call for the greeting is told once, and returns that; before, its task is about to be
told. -/
theorem settled_once :
    (∃ s, engine.answers ⟨3⟩ acts = [some (.settled s)] ∧
      Deed.Verdict (engine.tale ⟨3⟩ acts) s ∧ engine.Returned ⟨3⟩ s acts) ∧
    ∃ s, Deed.Verdict (engine.tale ⟨3⟩ (acts.take 18)) s ∧
      ∃ t ∈ (engine.after (acts.take 18)).tasks,
        (engine.after (acts.take 18)).IsTelling t ⟨3⟩ s := by
  have hnew : engine.IsNew := ⟨rfl, rfl, rfl, rfl⟩
  constructor
  · have hpanic : ∀ d ∈ engine.tale ⟨3⟩ acts, d.isPanic = false := by decide +kernel
    obtain ⟨-, htold, -⟩ := hnew.settlement hpanic
    have hone : (engine.answers ⟨3⟩ acts).length = 1 := by decide +kernel
    have hsome : ∀ x ∈ engine.answers ⟨3⟩ acts, x.isSome = true := by decide +kernel
    obtain ⟨x, hx⟩ := List.length_eq_one_iff.1 hone
    rw [hx] at htold hsome ⊢
    obtain ⟨reply, rfl⟩ := Option.isSome_iff_exists.1 (hsome x List.mem_cons_self)
    obtain ⟨-, s, rfl, hverdict, -, hreturned⟩ := htold reply List.mem_cons_self
    exact ⟨s, rfl, hverdict, hreturned⟩
  · have hpanic : ∀ d ∈ engine.tale ⟨3⟩ (acts.take 18), d.isPanic = false := by decide +kernel
    obtain ⟨-, -, hover⟩ := hnew.settlement hpanic
    have hmade : 0 < (engine.tale ⟨3⟩ (acts.take 18)).length := by decide +kernel
    have hnone : (engine.answers ⟨3⟩ (acts.take 18)).length = 0 := by decide +kernel
    obtain ⟨x, hx⟩ | ⟨-, htelling⟩ := hover (List.ne_nil_of_length_pos hmade) (by decide +kernel)
    · rw [hx] at hnone
      cases hnone
    · exact htelling

end Greeting

end DurableFlow
