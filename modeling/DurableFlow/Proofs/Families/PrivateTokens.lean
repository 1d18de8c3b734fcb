import DurableFlow.Proofs.Families.MemberNumbers

/-!
# Private tokens

A chain rests under a token of its own, which nobody else gets to see. As long as the chain rests,
nothing but its continuation is under that token, unless a task was started from outside with it.

Main statement: `Engine.IsNew.eq_of_isWithin`.
-/

namespace DurableFlow

namespace Token

/-- No task is started under a token, or under one that descends from it. -/
def IsPrivate (τ : Token) (as : List Act) : Prop :=
  ∀ a ∈ as, ∀ σ f, a.opening? = some (σ, f) → σ.isWithin τ = false

theorem IsPrivate.left {τ : Token} {as bs : List Act} (h : τ.IsPrivate (as ++ bs)) :
    τ.IsPrivate as :=
  fun a ha => h a (List.mem_append_left _ ha)

end Token

namespace Engine

variable {e : Engine} {a : Act} {as : List Act} {τ : Token} {N M R : Multiset Member}
  {woken : Option (Timer Continuation)} {ds : List (Chain × Deed)}

/-- If only chains that rest are under a token, this remains so; one that is laid to rest under it
has the number that came next. -/
theorem Alters.isWithin_cases (h : e.Alters a ds N M) (hprivate : τ.IsPrivate [a])
    (hN : ∀ m ∈ N, m.token.isWithin τ = true → ∃ y, m = .timer y ∧ y.token = τ) :
    ∀ m ∈ M, m.token.isWithin τ = true → ∃ y, m = .timer y ∧ y.token = τ := by
  intro m hm hwithin
  -- A task is not under the token.
  have htask : ∀ {t : Task}, .task t ∈ N → t.token.isWithin τ = false := by
    intro t ht
    rw [Bool.eq_false_iff]
    intro hin
    obtain ⟨y, heq, -⟩ := hN (.task t) ht hin
    cases heq
  cases h.comes m hm with
  | keep hm => exact hN m hm hwithin
  | @left t _ _ t' ht _ hyields ht' =>
    have hwithin : t'.token.isWithin τ = true := hwithin
    rw [hyields.token t' ht', htask ht] at hwithin
    cases hwithin
  | @rested t _ _ y ht _ hyields _ hy =>
    obtain ⟨htoken, -⟩ := hyields.turns.of_rested y hy
    have hwithin : y.token.isWithin τ = true := hwithin
    rw [htoken, Token.isWithin_child_iff, htask ht, or_iff_left Bool.false_ne_true] at hwithin
    exact ⟨y, rfl, htoken.trans hwithin⟩
  | @start token f ha _ =>
    have hapart := hprivate a (List.mem_singleton_self a) token f ha
    cases hapart.symm.trans hwithin

/-- Whether a chain rests under a token, or may come to do so. -/
def Awaits (e : Engine) (τ : Token) : Prop :=
  e.next ≤ τ.path.headD 0 ∨ ∃ x, .timer x ∈ e.members ∧ x.token = τ

theorem Sound.awaits_of_act {S : Standard} (h : e.Sound S) (hτ : (e.act a).Awaits τ) :
    e.Awaits τ := by
  obtain hle | ⟨x, hx, rfl⟩ := hτ
  · exact .inl ((h.next_le a).trans hle)
  · cases h.stems a _ hx with
    | keep hx => exact .inr ⟨x, hx, rfl⟩
    | rested _ _ hyields hx =>
      refine .inl ?_
      rw [(hyields.turns.of_rested x hx).1]
      exact le_rfl

/-- A continuation that goes off leaves nothing behind under its token. -/
theorem Passage.not_awaits (h : e.Passage a M R woken) (hmarked : e.IsMarked)
    (hnodup : (e.members.map Member.number).Nodup) {y : Timer Continuation} (hy : y ∈ woken) :
    ¬ (e.act a).Awaits y.token := by
  obtain ⟨hhead, hlt⟩ := h.delay_lt hmarked hy
  rintro (hle | ⟨x, hx, htoken⟩)
  · omega
  · -- The other one would have the same number.
    have hxmarked := h.isMarked hmarked _ hx
    have hx : .timer x ∈ R := by
      obtain ⟨_, -, heq⟩ | hx := h.mem_cases hx
      · cases heq
      · exact hx
    have hM := h.alters.nodup_numbers hmarked hnodup
    rw [h.resting, Option.mem_def.1 hy, Option.toList_some, Member.timers_cons, Member.timers_nil,
      Multiset.cons_add, Multiset.zero_add, Multiset.map_cons, Multiset.nodup_cons] at hM
    refine hM.1 (Multiset.mem_map.2 ⟨_, hx, ?_⟩)
    show x.work.delay = y.work.delay
    rw [← hxmarked.headD_path, htoken, hhead]

/-- **As long as a chain rests under a token that nobody else gets to see, only chains that rest are
under it.** -/
theorem IsNew.secluded (h : e.IsNew) (hprivate : τ.IsPrivate as) (hτ : (e.after as).Awaits τ) :
    ∀ m ∈ (e.after as).members, m.token.isWithin τ = true → ∃ y, m = .timer y ∧ y.token = τ := by
  induction as using List.reverseRecOn with
  | nil => exact fun m hm => absurd hm (h.not_mem_members m)
  | append_singleton as a ih =>
    have hsound : (e.after as).Sound .any := (h.sound .any).after_any as
    have hmarked : (e.after as).IsMarked := (h.sound .any).isMarked_after h.isMarked as
    rw [after_concat] at hτ ⊢
    obtain ⟨M, R, woken, hpassage⟩ := hsound.passage a
    have hM := hpassage.alters.isWithin_cases (fun b hb => hprivate b (List.mem_append_right _ hb))
      (ih hprivate.left (hsound.awaits_of_act hτ))
    intro m hm hwithin
    obtain ⟨y, hy, rfl⟩ | hm := hpassage.mem_cases hm
    · obtain ⟨y', heq, htoken⟩ := hM _ (hpassage.mem_of_woken hy) hwithin
      cases heq
      exact absurd (htoken ▸ hτ) (hpassage.not_awaits hmarked (h.nodup_numbers as) hy)
    · exact hM m (hpassage.mem_of_mem_rest hm) hwithin

/-- **Nothing but its continuation is under the token of a chain that rests.** -/
theorem IsNew.eq_of_isWithin (h : e.IsNew) {x : Timer Continuation}
    (hx : .timer x ∈ (e.after as).members) (hprivate : x.token.IsPrivate as) {m : Member}
    (hm : m ∈ (e.after as).members) (hwithin : m.token.isWithin x.token = true) :
    m = .timer x := by
  obtain ⟨y, rfl, htoken⟩ := h.secluded hprivate (.inr ⟨x, hx, rfl⟩) m hm hwithin
  have hmarked := (h.sound .any).isMarked_after h.isMarked as
  refine Multiset.inj_on_of_nodup_map (h.nodup_numbers as) _ hm _ hx ?_
  show y.work.delay = x.work.delay
  rw [← (hmarked _ hm).headD_path, ← (hmarked _ hx).headD_path, htoken]

end Engine

end DurableFlow
