import DurableFlow.Proofs.Delays.DelayEntries
import DurableFlow.Proofs.Positions.RestingChains
import DurableFlow.Proofs.Families.PrivateTokens
import DurableFlow.Proofs.Cancellation.CancelledCallers

/-!
# Cancelled delays

What comes of the cancellation of a pending delay: the chain that rests does nothing any more, its
caller is told that it was cancelled, and the next run of the instance starts where the chain would
have gone on.

Main statement: `Engine.IsLone.cancels_delay`.
-/

namespace DurableFlow

namespace Deed

/-- A chain that has given up, or was taken away, while its deeds were those of complete rounds, has
nothing to tell but that it was cancelled. -/
theorem Verdict.eq_cancelled {T T' : List Deed} {s : Settlement} (h : Verdict (T ++ T') s)
    (hpassing : ∀ d ∈ T, d.IsPassing) (hfinal : ∀ d ∈ T, d.isFinal = false)
    (hT' : ∀ d ∈ T', d.isFarewell = true) : s = .error (.fault .cancelled) := by
  have hmem : ∀ {d : Deed}, d ∈ T ++ T' → ¬ d.IsPassing → d.isFarewell = true := by
    intro d hd hnot
    rcases List.mem_append.1 hd with hd | hd
    · exact absurd (hpassing d hd) hnot
    · exact hT' d hd
  by_cases hlost : .lost ∈ T ++ T'
  · exact h.1 hlost
  · have hanswers := h.2 hlost
    obtain ⟨inst, output, rfl⟩ | ⟨inst, rfl⟩ | ⟨cause, rfl⟩ | hdropped | ⟨fault, hhalted⟩ :=
      hanswers.cases
    · cases hmem ((hanswers.completed inst output).1 rfl).1 id
    · obtain ⟨i, message, workflow, hwait, -⟩ := (hanswers.waiting inst).1 rfl
      cases hmem hwait id
    · obtain ⟨i, hfailed⟩ := (hanswers.failed cause).1 rfl
      cases hmem hfailed id
    · exact hanswers.dropped hdropped
    · rw [hanswers.halted fault hhalted]
      rcases List.mem_append.1 hhalted with hhalted | hhalted
      · cases hfinal _ hhalted
      · cases fault with
        | cancelled => rfl
        | _ => cases hT' _ hhalted

end Deed

theorem Recalls.ne_nil {d : Definition} {p₀ p : Nat} {T : List Deed} {c : Chain} {φ : Phase}
    (h : Recalls d p₀ T c φ p) : T ≠ [] := by
  obtain ⟨T₀, _, _, rfl, htrail, -⟩ := h
  cases htrail <;> simp

namespace Engine

/-- The strands of an engine are those of its members. -/
theorem strands_eq_bind (e : Engine) :
    e.account.strands = e.members.bind fun m => (m.strands : Multiset Strand) := by
  have htimers : ∀ xs : List (Timer Continuation),
      (Member.timers xs).bind (fun m => (m.strands : Multiset Strand)) =
        (xs.map Timer.strand : List Strand) := by
    intro xs
    rw [Member.timers, Multiset.coe_bind, List.flatMap_map]
    exact congrArg _ (List.map_eq_flatMap ..).symm
  rw [members, Multiset.add_bind, bind_tasks, htimers]
  rfl

end Engine

/-- Nobody else has to do with a completion that a strand owes. -/
theorem Account.Fate.alone {k : CompletionId} {T : List Deed} {R : List (Option Reply)}
    {A : Account} {s : Strand} {rest : Multiset Strand} (h : Account.Fate k T R A)
    (hA : A.strands = s ::ₘ rest) (hk : s.chain.completion = some k) :
    ∀ r ∈ rest, ¬ r.IsParty k := by
  cases h with
  | promised hT hpromise =>
    obtain hpanicked | ⟨hnone, -⟩ := hpromise.of_party hA (.inl hk)
    · exact absurd hpanicked hT
    · exact Multiset.filter_eq_nil.1 hnone
  | ruptured hT hruptured => exact absurd hk (hruptured.completion_ne hA)

/-- How the delay of a chain that rests is cancelled. -/
def Timer.revocation (x : Timer Continuation) : Act :=
  .cancelDelay x.work.chain.dispatcher x.work.chain.inst

theorem Timer.meets_revocation {S : Standard} (x : Timer Continuation) : x.revocation.Meets S :=
  trivial

namespace Engine

variable {e m : Engine} {x : Timer Continuation} {as bs cs : List Act}

/-- An instance without an entry has no pending delay, and whoever cancels it is told so. -/
theorem hasPending_of_none {d : DispatcherId} {inst : String}
    (h : m.pending.get? (d, inst) = none) :
    m.hasPending d inst = false ∧ m.cancelDelay d inst = none := by
  simp [hasPending, Table.contains, cancelDelay, h]

theorem act_revocation (hp : m.pending.get? x.key = some x.entry) :
    m.act x.revocation =
      { m with pending := m.pending.erase x.key, cancelled := x.token :: m.cancelled } := by
  have hp : m.pending.get? (x.work.chain.dispatcher, x.work.chain.inst) = some x.entry := hp
  simp [act, Timer.revocation, cancelDelay, hp, cancel, Timer.entry, Timer.key]

/-- The strands of an engine are that of a continuation and those of the other members. -/
theorem exists_strands_eq_cons (hx : x ∈ m.scheduler.timers.armed) :
    ∃ rest, m.account.strands = x.strand ::ₘ rest ∧
      ∀ u ∈ m.members, u ≠ .timer x → ∀ s ∈ u.strands, s ∈ rest := by
  obtain ⟨M, hM⟩ := Multiset.exists_cons_of_mem (timer_mem_members hx)
  have hstrands := m.strands_eq_bind
  rw [hM, Multiset.cons_bind] at hstrands
  refine ⟨M.bind fun u => (u.strands : Multiset Strand), hstrands, fun u hu hne s hs => ?_⟩
  rw [hM] at hu
  exact Multiset.mem_bind.2 ⟨u, (Multiset.mem_cons.1 hu).resolve_left hne, hs⟩

/-- What is left of the family of a chain once its delay has been cancelled. -/
def remains (m : Engine) (x : Timer Continuation) (bs : List Act) : Nat → Bool :=
  (m.act x.revocation).family (· == x.work.delay) bs

/-- The numbers of the delays of an instance. -/
def delaysOf (y : String) (m : Engine) (n : Nat) : Bool :=
  m.scheduler.timers.armed.any fun z => z.work.chain.inst == y && z.work.delay == n

theorem delaysOf_eq_true {y : String} {n : Nat} : m.delaysOf y n = true ↔
    ∃ z ∈ m.scheduler.timers.armed, z.work.chain.inst = y ∧ z.work.delay = n := by
  simp [delaysOf]

section

variable (h : e.IsNew)
include h

/-- A continuation is known by the number of its delay. -/
theorem IsNew.eq_timer_of_number (hx : x ∈ (e.after as).scheduler.timers.armed) {u : Member}
    (hu : u ∈ (e.after as).members) (hnumber : u.number = x.work.delay) : u = .timer x :=
  Multiset.inj_on_of_nodup_map (h.nodup_numbers as) _ hu _ (timer_mem_members hx) hnumber

theorem IsNew.marked_of_revocation : ((e.after as).act x.revocation).IsMarked :=
  ((h.sound .any).after_any as).isMarked_act ((h.sound .any).isMarked_after h.isMarked as) _

/-- **Chains that rest under cancelled tokens fade** once the delay has been cancelled. -/
theorem IsNew.isFading (hp : (e.after as).pending.get? x.key = some x.entry)
    (has : ∀ a ∈ as, a.Meets .loyal) (hbs : ∀ b ∈ bs, b.Meets .loyal)
    {X : Timer Continuation → Prop} {own : Nat → Bool}
    (hX : ∀ z, X z → z ∈ (e.after as).scheduler.timers.armed ∧
      ((e.after as).act x.revocation).isCancelled z.token = true)
    (hown : ∀ n, own n = true → ∃ z, X z ∧ z.work.delay = n)
    (hheeds : ∀ z, X z → z.work.chain.definition.size ≤ z.work.next →
      ((e.after as).act x.revocation).Heeds bs) :
    ((e.after as).act x.revocation).IsFading X
      (((e.after as).act x.revocation).family own bs) bs := by
  have hmembers : ((e.after as).act x.revocation).members = (e.after as).members := by
    rw [act_revocation hp]
    rfl
  refine Sound.isFading (((h.sound .loyal).after has).act x.meets_revocation).1 hbs
    h.marked_of_revocation ?_ ?_
    (fun z hz => (hX z hz).2) hheeds
  · intro n hn
    obtain ⟨z, hz, rfl⟩ := hown n hn
    have hmem : .timer z ∈ ((e.after as).act x.revocation).members :=
      hmembers ▸ timer_mem_members (hX z hz).1
    exact (h.marked_of_revocation _ hmem).number_lt
  · intro u hu hn
    obtain ⟨z, hz, hnumber⟩ := hown _ hn
    exact ⟨z, hz, h.eq_timer_of_number (hX z hz).1 (hmembers ▸ hu) hnumber.symm⟩

end

/-! ## The instance -/

/-- No run of an instance starts in the course of a history. -/
def StartsNone (e : Engine) (inst : String) (as : List Act) : Prop :=
  ∀ s ∈ e.chronicle as, s.1.inst = inst → s.2.isStart = false

theorem StartsNone.left {inst : String} (h : e.StartsNone inst (as ++ bs)) :
    e.StartsNone inst as := by
  intro s hs
  refine h s ?_
  rw [chronicle_append]
  exact List.mem_append_left _ hs

section

variable {X : Timer Continuation → Prop} {own : Nat → Bool} {y : String}
  (h : m.IsFading X own bs)
  (hothers : ∀ u ∈ m.members, own u.number = false → ∀ s ∈ u.strands, s.chain.inst ≠ y)
include h hothers

/-- **Until a run of the instance starts, nothing else is done for it** than that chains give up. -/
theorem IsFading.isFarewell_of_inst (hnone : m.StartsNone y bs) :
    ∀ s ∈ m.chronicle bs, s.1.inst = y → s.2.isFarewell = true := by
  intro s hs hinst
  obtain ⟨before, a, after, rfl, hdeed⟩ := exists_of_mem_chronicle hs
  have hafter := h.left.others hothers (P := fun r => r.chain.inst ≠ y)
    (fun hloyal hne hgo _ heq => hne ((hgo.inst_eq hloyal).symm.trans heq)) ?_
  · obtain ⟨i, hstarted⟩ | hfarewell := h.after.deeds_cases hdeed
      fun u hu hown r hr heq => hafter u hu hown r hr (heq ▸ hinst)
    · have hstart := hnone s hs hinst
      rw [hstarted] at hstart
      cases hstart
    · exact hfarewell
  · rintro before' a' after' rfl r c i hd - heq
    cases hnone.left _ (mem_chronicle hd after') heq

theorem IsFading.position_eq (hnone : m.StartsNone y bs) :
    (m.after bs).position y = m.position y := by
  rw [h.sound.position_after h.loyal y]
  refine Deed.position_of_forall_ne (fun n hn => ?_) _
  obtain ⟨c, hd, hinst⟩ := Deed.mem_of.1 hn
  cases h.isFarewell_of_inst hothers hnone _ hd (beq_iff_eq.1 hinst)

end

/-! ## The caller -/

section

variable {X : Timer Continuation → Prop} {own : Nat → Bool} {k : CompletionId}
  (h : m.IsFading X own bs) (hk : k.number < m.next)
  (hothers : ∀ u ∈ m.members, own u.number = false → ∀ s ∈ u.strands, ¬ s.IsParty k)
include h hk hothers

/-- Nobody else comes to have to do with a completion. -/
theorem IsFading.not_party :
    ∀ u ∈ (m.after bs).members, own u.number = false → ∀ s ∈ u.strands, ¬ s.IsParty k := by
  refine h.others hothers (P := fun s => ¬ s.IsParty k) ?_ ?_
  · rintro o o' c φ p ds p' c' φ' - hs hgo ho hparty
    exact hs (hparty.imp (hgo.completion_le k) (ho k))
  · rintro before a after rfl r c i - hc hparty
    have hparty : c.completion = some k := or_self_iff.1 hparty
    obtain hnone | hnew := hc
    · cases hnone.symm.trans hparty
    · obtain rfl := Option.some.inj (hnew.symm.trans hparty)
      exact absurd hk (Nat.not_lt.2 (h.sound.to_any.next_le_after before))

/-- Nothing else is done for the chain that owes it than that the chain gives up. -/
theorem IsFading.isFarewell_of_owing : ∀ d ∈ Deed.owing k (m.chronicle bs), d.isFarewell = true := by
  intro d hd
  obtain ⟨c, hmem, hc⟩ := Deed.mem_of.1 hd
  have hc : c.completion = some k := beq_iff_eq.1 hc
  obtain ⟨before, a, after, rfl, hdeed⟩ := exists_of_mem_chronicle hmem
  have hparty := h.left.not_party hk hothers
  obtain ⟨i, rfl⟩ | hfarewell := h.after.deeds_cases hdeed
    fun u hu hown r hr heq => hparty u hu hown r hr (.inl (heq ▸ hc))
  · have hpasses := (h.after.sound.act (h.after.loyal a List.mem_cons_self)).2
    obtain hnone | hnew := (hpasses.started hdeed).1
    · cases hnone.symm.trans hc
    · obtain rfl := Option.some.inj (hnew.symm.trans hc)
      exact absurd hk (Nat.not_lt.2 (h.sound.to_any.next_le_after before))
  · exact hfarewell

/-- Once nothing is left of the chain, nobody owes the completion. -/
theorem IsFading.isUnderway_eq_false (hgone : ∀ u ∈ (m.after bs).members, own u.number = false) :
    (m.after bs).isUnderway k = false := by
  rw [isUnderway_eq_false_iff]
  refine Multiset.filter_eq_nil.2 fun s hs hparty => ?_
  rw [strands_eq_bind] at hs
  obtain ⟨u, hu, hs⟩ := Multiset.mem_bind.1 hs
  exact h.not_party hk hothers u hu (hgone u hu) s hs hparty

end

/-- Where nothing moves, nothing is left of the chain once its continuation is armed no more. -/
theorem IsFading.isGone {own : Nat → Bool} (h : m.IsFading (· = x) own bs)
    (hrest : (m.after bs).IsAtRest) (hx : x ∉ (m.after bs).scheduler.timers.armed) :
    ∀ u ∈ (m.after bs).members, own u.number = false := by
  have hfading : (m.after bs).IsFading (· = x) own [] :=
    IsFading.after (by rwa [List.append_nil])
  intro u hu
  by_contra hown
  obtain ⟨_, rfl, rfl⟩ := hfading.eq_timer hrest hu (by simpa using hown)
  exact hx (mem_armed_of_members hu)

/-! ## What comes of a cancellation -/

/-- What comes of it that the delay of a chain is cancelled after a history, whatever happens
then. -/
structure Revoked (e : Engine) (x : Timer Continuation) (as bs : List Act) : Prop where
  /-- Who cancels the delay is told that there was one. -/
  known : ((e.after as).cancelDelay x.work.chain.dispatcher x.work.chain.inst).isSome = true
  /-- Nothing else changes but the entry of the delay, and that its token is cancelled. -/
  effect : (e.after as).act x.revocation = { (e.after as) with
    pending := (e.after as).pending.erase x.key
    cancelled := x.token :: (e.after as).cancelled }
  /-- The chain does nothing any more but to give up, also if its continuation goes off. -/
  idle : ∀ s ∈ ((e.after as).act x.revocation).doings ((e.after as).remains x bs) bs,
    s.1 = x.work.chain ∧ s.2.isFarewell = true
  /-- Until a run of the instance starts, nothing is done for it but that chains give up, and its
  position stays. -/
  alone : ((e.after as).act x.revocation).StartsNone x.work.chain.inst bs →
    (∀ s ∈ ((e.after as).act x.revocation).chronicle bs, s.1.inst = x.work.chain.inst →
      s.2.isFarewell = true) ∧
    (e.after (as ++ x.revocation :: bs)).position x.work.chain.inst = x.work.next
  /-- The first run that starts does so at the step at which the chain would have gone on. -/
  starts : ∀ before a after c i, bs = before ++ a :: after →
    ((e.after as).act x.revocation).StartsNone x.work.chain.inst before →
      (c, .started i) ∈ (e.after (as ++ x.revocation :: before)).deeds a →
        c.inst = x.work.chain.inst → i = x.work.next
  /-- A caller who waits is told nothing but that it was cancelled. -/
  told : ∀ k reply, x.work.chain.completion = some k →
    some reply ∈ e.answers k (as ++ x.revocation :: bs) →
      reply = .settled (.error (.fault .cancelled))
  /-- Once nothing is left of the chain, the caller has been told, or was cut off, or it is told by
  the next move of its task. -/
  released : ∀ k, x.work.chain.completion = some k →
    (∀ u ∈ (e.after (as ++ x.revocation :: bs)).members,
      (e.after as).remains x bs u.number = false) →
    (∃ reply, e.answers k (as ++ x.revocation :: bs) = [reply]) ∨
      e.answers k (as ++ x.revocation :: bs) = [] ∧
        ∃ t ∈ (e.after (as ++ x.revocation :: bs)).tasks,
          (e.after (as ++ x.revocation :: bs)).IsTelling t k (.error (.fault .cancelled))
  /-- Nothing is left of it where nothing moves, once the continuation is armed no more. -/
  gone : (e.after (as ++ x.revocation :: bs)).IsAtRest →
    x ∉ (e.after (as ++ x.revocation :: bs)).scheduler.timers.armed →
      ∀ u ∈ (e.after (as ++ x.revocation :: bs)).members,
        (e.after as).remains x bs u.number = false
  /-- No other token is cancelled: not that of another continuation or of a task, and not that of a
  run. -/
  spared : (∀ u ∈ (e.after as).members, u ≠ .timer x →
      ((e.after as).act x.revocation).isCancelled u.token = (e.after as).isCancelled u.token) ∧
    ∀ before a after τ f, as = before ++ a :: after → a.opening? = some (τ, f) →
      ((e.after as).act x.revocation).isCancelled τ = (e.after as).isCancelled τ
  /-- The instance has no pending delay, until a chain of it is laid to rest. -/
  forgotten : (∀ c next, (c, .suspended next) ∈ ((e.after as).act x.revocation).chronicle bs →
      (c.dispatcher, c.inst) ≠ x.key) →
    (e.after (as ++ x.revocation :: bs)).hasPending x.work.chain.dispatcher x.work.chain.inst =
      false ∧
    (e.after (as ++ x.revocation :: bs)).cancelDelay x.work.chain.dispatcher x.work.chain.inst =
      none

theorem after_revocation (e : Engine) (x : Timer Continuation) (as bs : List Act) :
    e.after (as ++ x.revocation :: bs) = ((e.after as).act x.revocation).after bs := by
  rw [after_append, after_cons]

/-- What is done for the chain that owes a completion is continued by what is done after the
cancellation. -/
theorem tale_revocation (e : Engine) (x : Timer Continuation) (k : CompletionId) (as bs : List Act) :
    e.tale k (as ++ x.revocation :: bs) =
      e.tale k as ++ Deed.owing k (((e.after as).act x.revocation).chronicle bs) := by
  have hdeeds : (e.after as).deeds x.revocation = [] := rfl
  rw [tale, chronicle_append, Deed.of_append, chronicle, hdeeds, List.nil_append]
  rfl

section

variable (h : e.IsLone x.work.chain.inst as) (hx : x ∈ (e.after as).scheduler.timers.armed)
  (hlive : (e.after as).isCancelled x.token = false)
include h hx hlive

/-- The delay of a chain that rests is entered, and its cancellation does not touch the members. -/
theorem IsLone.get?_pending : (e.after as).pending.get? x.key = some x.entry :=
  (IsLone.enters (k := x.key) h).entered x hx rfl hlive

theorem IsLone.members_revocation :
    ((e.after as).act x.revocation).members = (e.after as).members := by
  rw [act_revocation (h.get?_pending hx hlive)]
  rfl

/-- A token is cancelled with the delay if it was before, or if it is within that of the delay. -/
theorem IsLone.isCancelled_revocation (τ : Token) :
    ((e.after as).act x.revocation).isCancelled τ =
      (τ.isWithin x.token || (e.after as).isCancelled τ) := by
  rw [act_revocation (h.get?_pending hx hlive)]
  rfl

/-- The chain fades. -/
theorem IsLone.isFading (hbs : ∀ b ∈ bs, b.Meets .loyal)
    (hheeds : x.work.chain.definition.size ≤ x.work.next →
      ((e.after as).act x.revocation).Heeds bs) :
    ((e.after as).act x.revocation).IsFading (· = x) ((e.after as).remains x bs) bs := by
  refine h.new.isFading (h.get?_pending hx hlive) h.loyal hbs ?_ ?_ ?_
  · rintro z rfl
    refine ⟨hx, ?_⟩
    rw [h.isCancelled_revocation hx hlive, Token.isWithin_self, Bool.true_or]
  · exact fun n hn => ⟨x, rfl, (beq_iff_eq.1 hn).symm⟩
  · rintro z rfl
    exact hheeds

/-- All chains of the instance that rest fade. -/
theorem IsLone.isFading_inst (hbs : ∀ b ∈ bs, b.Meets .loyal)
    (hheeds : ∀ z ∈ (e.after as).scheduler.timers.armed,
      z.work.chain.inst = x.work.chain.inst → z.work.chain.definition.size ≤ z.work.next →
        ((e.after as).act x.revocation).Heeds bs) :
    ((e.after as).act x.revocation).IsFading
      (fun z => z ∈ (e.after as).scheduler.timers.armed ∧ z.work.chain.inst = x.work.chain.inst)
      (((e.after as).act x.revocation).family
        ((e.after as).delaysOf x.work.chain.inst) bs) bs := by
  refine h.new.isFading (h.get?_pending hx hlive) h.loyal hbs ?_ ?_ ?_
  · rintro z ⟨hz, hinst⟩
    refine ⟨hz, ?_⟩
    rw [h.isCancelled_revocation hx hlive, Bool.or_eq_true]
    by_cases heq : Member.timer z = .timer x
    · cases heq
      exact .inl (Token.isWithin_self _)
    · obtain ⟨z', -, hz', hcancelled⟩ := h.others hx hlive (timer_mem_members hz) heq
        (List.mem_singleton_self z.strand) hinst
      cases hz'
      exact .inr hcancelled
  · intro n hn
    obtain ⟨z, hz, hinst, hnumber⟩ := delaysOf_eq_true.1 hn
    exact ⟨z, ⟨hz, hinst⟩, hnumber⟩
  · exact fun z hz => hheeds z hz.1 hz.2

/-- No other member has a chain of the instance. -/
theorem IsLone.others_of_inst (bs : List Act) :
    ∀ u ∈ ((e.after as).act x.revocation).members,
      ((e.after as).act x.revocation).family ((e.after as).delaysOf x.work.chain.inst) bs
        u.number = false → ∀ s ∈ u.strands, s.chain.inst ≠ x.work.chain.inst := by
  intro u hu hown s hs hinst
  have hmarked : ((e.after as).act x.revocation).IsMarked := h.new.marked_of_revocation
  rw [(((h.new.sound .any).after_any as).act_any _).family_of_lt _ _ (hmarked u hu).number_lt,
    Bool.eq_false_iff] at hown
  rw [h.members_revocation hx hlive] at hu
  refine hown (delaysOf_eq_true.2 ?_)
  by_cases heq : u = .timer x
  · subst heq
    exact ⟨x, hx, rfl, rfl⟩
  · obtain ⟨z, hz, rfl, -⟩ := h.others hx hlive hu heq hs hinst
    rw [List.mem_singleton.1 hs] at hinst
    exact ⟨z, hz, hinst, rfl⟩

/-- No other member has to do with the completion of the chain. -/
theorem IsLone.others_of_completion (bs : List Act) {k : CompletionId}
    (hk : x.work.chain.completion = some k) :
    k.number < ((e.after as).act x.revocation).next ∧
    ∀ u ∈ ((e.after as).act x.revocation).members, (e.after as).remains x bs u.number = false →
      ∀ s ∈ u.strands, ¬ s.IsParty k := by
  obtain ⟨rest, hstrands, hothers⟩ := exists_strands_eq_cons hx
  have hfate := h.new.fate k as
  have hmarked : ((e.after as).act x.revocation).IsMarked := h.new.marked_of_revocation
  refine ⟨?_, fun u hu hown s hs => ?_⟩
  · rw [act_revocation (h.get?_pending hx hlive)]
    exact (hfate.owes hstrands hk).2.lt_next
  · rw [remains, (((h.new.sound .any).after_any as).act_any _).family_of_lt _ _
      (hmarked u hu).number_lt, beq_eq_false_iff_ne] at hown
    rw [h.members_revocation hx hlive] at hu
    refine hfate.alone hstrands hk s (hothers u hu (fun heq => ?_) s hs)
    exact hown (congrArg Member.number heq)

/-- What the chain has done before it was cancelled tells its caller nothing. -/
theorem IsLone.verdict_of_revocation {k : CompletionId} (hk : x.work.chain.completion = some k)
    (hfading : ((e.after as).act x.revocation).IsFading (· = x) ((e.after as).remains x bs) bs) :
    e.tale k (as ++ x.revocation :: bs) ≠ [] ∧
    (∀ d ∈ e.tale k (as ++ x.revocation :: bs), d.isPanic = false) ∧
    ∀ s, Deed.Verdict (e.tale k (as ++ x.revocation :: bs)) s → s = .error (.fault .cancelled) := by
  obtain ⟨hlt, hothers⟩ := h.others_of_completion hx hlive bs hk
  have hfarewell := hfading.isFarewell_of_owing hlt hothers
  obtain ⟨hpanic, howes⟩ := h.new.owes_of_mem
    (Multiset.mem_add.2 (.inr (List.mem_map_of_mem hx)) : x.strand ∈ _) hk
  obtain ⟨p₀, p, hrecalls⟩ := howes.recalls
  rw [tale_revocation]
  refine ⟨List.append_ne_nil_of_left_ne_nil hrecalls.ne_nil _, fun d hd => ?_, fun s hs => ?_⟩
  · cases d with
    | panicked =>
      rcases List.mem_append.1 hd with hd | hd
      · exact absurd hd hpanic
      · cases hfarewell _ hd
    | _ => rfl
  · exact hs.eq_cancelled hrecalls.passing_of_resting howes.final hfarewell

/-- The chain would have gone on at the position that is stored. -/
theorem IsLone.position_of_revocation :
    ((e.after as).act x.revocation).position x.work.chain.inst = x.work.next := by
  rw [act_revocation (h.get?_pending hx hlive)]
  exact h.position_eq hx hlive

/-- The first run that starts does so where the chain would have gone on. -/
theorem IsLone.start_of_revocation {X : Timer Continuation → Prop} {a : Act} {c : Chain} {i : Nat}
    (hfading : ((e.after as).act x.revocation).IsFading X
      (((e.after as).act x.revocation).family ((e.after as).delaysOf x.work.chain.inst)
        (bs ++ a :: cs)) (bs ++ a :: cs))
    (hnone : ((e.after as).act x.revocation).StartsNone x.work.chain.inst bs)
    (hd : (c, .started i) ∈ (e.after (as ++ x.revocation :: bs)).deeds a)
    (hinst : c.inst = x.work.chain.inst) : i = x.work.next := by
  rw [after_revocation] at hd
  have hpasses := (hfading.after.sound.act (hfading.after.loyal a List.mem_cons_self)).2
  have hothers := h.others_of_inst hx hlive (bs ++ a :: cs)
  calc i = (((e.after as).act x.revocation).after bs).position c.inst := (hpasses.started hd).2
    _ = ((e.after as).act x.revocation).position x.work.chain.inst := by
        rw [hinst]
        exact hfading.left.position_eq hothers hnone
    _ = x.work.next := h.position_of_revocation hx hlive

section

variable {k : CompletionId} (hk : x.work.chain.completion = some k)
  (hfading : ((e.after as).act x.revocation).IsFading (· = x) ((e.after as).remains x bs) bs)
include hk hfading

/-- The caller is told nothing but that it was cancelled. -/
theorem IsLone.told_of_revocation {reply : Reply}
    (hreply : some reply ∈ e.answers k (as ++ x.revocation :: bs)) :
    reply = .settled (.error (.fault .cancelled)) := by
  obtain ⟨-, hpanic, hverdict⟩ := h.verdict_of_revocation hx hlive hk hfading
  obtain ⟨-, s, rfl, hdecides⟩ := h.new.decides_of_answer hpanic hreply
  rw [hverdict s hdecides.verdict]

/-- Once nothing is left of the chain the caller has been told, or is about to be. -/
theorem IsLone.released_of_revocation
    (hgone : ∀ u ∈ (e.after (as ++ x.revocation :: bs)).members,
      (e.after as).remains x bs u.number = false) :
    (∃ reply, e.answers k (as ++ x.revocation :: bs) = [reply]) ∨
      e.answers k (as ++ x.revocation :: bs) = [] ∧
        ∃ t ∈ (e.after (as ++ x.revocation :: bs)).tasks,
          (e.after (as ++ x.revocation :: bs)).IsTelling t k (.error (.fault .cancelled)) := by
  obtain ⟨hmade, hpanic, hverdict⟩ := h.verdict_of_revocation hx hlive hk hfading
  obtain ⟨hlt, hparty⟩ := h.others_of_completion hx hlive bs hk
  have hover : (e.after (as ++ x.revocation :: bs)).isUnderway k = false := by
    rw [after_revocation] at hgone ⊢
    exact hfading.isUnderway_eq_false hlt hparty hgone
  obtain htold | ⟨hnone, s, hs, htelling⟩ := h.new.answered_or_telling hpanic hmade hover
  · exact .inl htold
  · exact .inr ⟨hnone, hverdict s hs ▸ htelling⟩

end

end

/-- **What comes of the cancellation of a delay.** Let at most one chain of an instance at a time be
one that may still go on, and let it rest; if its delay was the last step, let no continuation go
off whose token has been cancelled (`Engine.Heeds`): no step is left then before which the chain
would give up (`AwaitedDelay.completes_if_overtaken`). Who cancels its delay at the dispatcher that
laid it to rest is told so; the chain does nothing any more, its caller is told that it was
cancelled, nothing else is cancelled, and the next run of the instance starts where the chain would
have gone on. Older continuations never take away the entry of a later delay. -/
theorem IsLone.cancels_delay (h : e.IsLone x.work.chain.inst as) (hpending : e.pending = .empty)
    (hx : x ∈ (e.after as).scheduler.timers.armed)
    (hlive : (e.after as).isCancelled x.token = false) (hprivate : x.token.IsPrivate as)
    (hbs : ∀ b ∈ bs, b.Meets .loyal)
    (hheeds : ∀ z ∈ (e.after as).scheduler.timers.armed,
      z.work.chain.inst = x.work.chain.inst → z.work.chain.definition.size ≤ z.work.next →
        ((e.after as).act x.revocation).Heeds bs) :
    e.Revoked x as bs ∧
      ∀ cs k p, (e.after cs).pending.get? k = some p → (e.after cs).Outlasts k p := by
  refine ⟨?_, fun cs k p => h.new.outlasts hpending cs⟩
  have hp := h.get?_pending hx hlive
  have hfading := h.isFading hx hlive hbs (hheeds x hx rfl)
  have hinst := h.isFading_inst hx hlive hbs hheeds
  have hothers := h.others_of_inst hx hlive bs
  have hspared : ∀ τ : Token, τ.isWithin x.token = false →
      ((e.after as).act x.revocation).isCancelled τ = (e.after as).isCancelled τ := by
    intro τ hτ
    rw [h.isCancelled_revocation hx hlive, hτ, Bool.false_or]
  refine
    { known := ?_
      effect := act_revocation hp
      idle := ?_
      alone := ?_
      starts := ?_
      told := fun k reply hk hreply => h.told_of_revocation hx hlive hk hfading hreply
      released := fun k hk hgone => h.released_of_revocation hx hlive hk hfading hgone
      gone := ?_
      spared := ⟨?_, ?_⟩
      forgotten := ?_ }
  · have hp : (e.after as).pending.get? (x.work.chain.dispatcher, x.work.chain.inst) =
        some x.entry := hp
    simp [cancelDelay, hp]
  · intro s hs
    obtain ⟨z, hz, hfarewell⟩ := hfading.doings s hs
    exact hz ▸ hfarewell
  · intro hnone
    rw [after_revocation]
    exact ⟨hinst.isFarewell_of_inst hothers hnone,
      (hinst.position_eq hothers hnone).trans (h.position_of_revocation hx hlive)⟩
  · rintro before a after c i rfl hnone hd heq
    exact h.start_of_revocation hx hlive hinst hnone hd heq
  · intro hrest hgone
    rw [after_revocation] at hrest hgone ⊢
    exact hfading.isGone hrest hgone
  · intro u hu hne
    refine hspared u.token (Bool.eq_false_iff.2 fun hwithin => hne ?_)
    exact h.new.eq_of_isWithin (timer_mem_members hx) hprivate hu hwithin
  · rintro before a after τ f rfl ha
    exact hspared τ (hprivate a (List.mem_append_right _ List.mem_cons_self) τ f ha)
  · intro hnone
    have hgone : (((e.after as).act x.revocation).after bs).pending.get? x.key = none := by
      refine get?_eq_none_after ?_ hnone
      rw [act_revocation hp]
      exact Table.get?_erase_self _ _
    rw [after_revocation]
    exact hasPending_of_none hgone

end Engine

namespace AwaitedDelay

/-- The delay is the last step. -/
def definition : Definition := ⟨"vigil", [.delay .moment]⟩

theorem isLoyal_definition : definition.IsLoyal := by
  intro s hs
  rw [List.mem_singleton.1 hs]
  exact Step.isLoyal_deciding _

theorem meets_rests {S : Standard} (h : S.definition definition) : ∀ a ∈ rests [], a.Meets S :=
  Act.forall_meets (Registry.meets_empty.put _ h) rfl

theorem isLone_of_inits {as : List Act} (hloyal : ∀ a ∈ as, a.Meets .loyal)
    (hone : ∀ before ∈ as.inits, (Greeting.engine.after before).liveChains "x" ≤ 1) :
    Greeting.engine.IsLone "x" as where
  new := ⟨rfl, rfl, rfl, rfl⟩
  loyal := hloyal
  one before h := hone before ((List.mem_inits _ _).2 h)

theorem isLone : Greeting.engine.IsLone "x" (rests []) :=
  isLone_of_inits (meets_rests isLoyal_definition) (by decide +kernel)

/-- The continuation is dropped, the caller is told, and the instance is run again. -/
def later : List Act :=
  .drop 0 :: .replicate 2 (.advance 2) ++
    .run ⟨0⟩ (.root 1) { workflow := "vigil", inst := some "x" } :: .replicate 2 (.advance 5)

theorem meets_later : ∀ a ∈ later, a.Meets .loyal := by
  have hplain : later.all Act.isPlain = true := rfl
  exact fun a ha => Act.meets_of_isPlain (List.all_eq_true.1 hplain a ha)

/-- The delay is cancelled, and the scheduler lets no cancelled continuation go off: the caller who
waits is told of the cancellation, and the next run of the instance starts behind the delay. -/
theorem revoked : ∃ x, x ∈ (Greeting.engine.after (rests [])).scheduler.timers.armed ∧
    x.work.chain.definition.size ≤ x.work.next ∧
    ((Greeting.engine.after (rests [])).act x.revocation).Heeds later ∧
    Greeting.engine.Revoked x (rests []) later := by
  have hall : ∀ x ∈ (Greeting.engine.after (rests [])).scheduler.timers.armed,
      x.work.chain.inst = "x" ∧ x.work.chain.dispatcher = ⟨1⟩ ∧
        x.work.chain.definition.size ≤ x.work.next ∧
        (Greeting.engine.after (rests [])).isCancelled x.token = false ∧ x.token = ⟨[4, 0]⟩ := by
    decide +kernel
  have harmed : (Greeting.engine.after (rests [])).scheduler.timers.armed.length = 1 := by
    decide +kernel
  obtain ⟨x, hx⟩ := List.length_eq_one_iff.1 harmed
  have hx : x ∈ (Greeting.engine.after (rests [])).scheduler.timers.armed :=
    hx ▸ List.mem_singleton_self x
  obtain ⟨hinst, hdispatcher, hlast, hlive, htoken⟩ := hall x hx
  have hprivate : x.token.IsPrivate (rests []) := by
    have hopenings : ∀ a ∈ rests [], ∀ opening ∈ a.opening?,
        opening.1.isWithin ⟨[4, 0]⟩ = false := by decide +kernel
    rw [htoken]
    exact fun a ha σ f ho => hopenings a ha (σ, f) ho
  have hheeds : ((Greeting.engine.after (rests [])).act x.revocation).Heeds later := by
    have hrevocation : x.revocation = .cancelDelay ⟨1⟩ "x" := by
      rw [Timer.revocation, hinst, hdispatcher]
    rw [hrevocation]
    exact Act.forall_split (by decide +kernel)
  have h : Greeting.engine.IsLone x.work.chain.inst (rests []) := hinst ▸ isLone
  obtain ⟨hrevoked, -⟩ :=
    h.cancels_delay rfl hx hlive hprivate meets_later fun _ _ _ _ => hheeds
  exact ⟨x, hx, hlast, hheeds, hrevoked⟩

/-- The continuation goes off although its delay has been cancelled. -/
def overtaken : List Act :=
  rests [] ++ [.cancelDelay ⟨1⟩ "x", .wake 0] ++ .replicate 5 (.advance 5) ++
    .replicate 2 (.advance 2)

/-- There are two runners, and the first one runs the instance up to its delay. -/
def elsewhere : List Act :=
  [.addRunner (registry []) .empty, .addRunner (registry []) .empty,
    .run ⟨0⟩ (.root 0) { workflow := "vigil", inst := some "x", wait := true }] ++
      .replicate 8 (.advance 4)

theorem meets_elsewhere {S : Standard} (h : S.definition definition) :
    ∀ a ∈ elsewhere, a.Meets S := by
  have hregistry : (registry []).Meets S := Registry.meets_empty.put _ h
  have hplain : (elsewhere.drop 2).all Act.isPlain = true := rfl
  intro a ha
  obtain rfl | rfl | ha : a = .addRunner (registry []) .empty ∨
      a = .addRunner (registry []) .empty ∨ a ∈ elsewhere.drop 2 := by simpa [elsewhere] using ha
  · exact hregistry
  · exact hregistry
  · exact Act.meets_of_isPlain (List.all_eq_true.1 hplain a ha)

/-- **A cancellation that comes too late for the scheduler is overtaken behind the last step.** Who
cancels the delay is told that there was one; then the continuation goes off all the same, and as
there is no step left before which it would give up, it announces that the instance has completed,
and so its caller is told. And a delay is known only where it was laid to rest: while the
continuation is armed, a second runner cancels nothing. -/
theorem completes_if_overtaken :
    Greeting.engine.IsLone "x" (rests []) ∧
    ((Greeting.engine.after (rests [])).cancelDelay ⟨1⟩ "x").isSome = true ∧
    ((Greeting.engine.after overtaken).publicationsOf "x").map Notice.topic =
      [.delayed, .completed] ∧
    Greeting.engine.answers ⟨3⟩ overtaken = [some (.settled (.ok ⟨"x", .completed, none⟩))] ∧
    Greeting.engine.IsLone "x" elsewhere ∧
    (Greeting.engine.after elsewhere).scheduler.timers.armed.map (fun x => x.work.chain.inst) =
      ["x"] ∧
    ((Greeting.engine.after elsewhere).cancelDelay ⟨3⟩ "x").isNone = true :=
  ⟨isLone, by decide +kernel, by decide +kernel, rfl,
    isLone_of_inits (meets_elsewhere isLoyal_definition) (by decide +kernel), by decide +kernel,
    by decide +kernel⟩

end AwaitedDelay

end DurableFlow
