import DurableFlow.Proofs.Families.Descendants
import DurableFlow.Proofs.Settlement.WaitingCallers

/-!
# Broken promises

What becomes of a completion once a panic has torn down the chain that owed it. Nobody settles it any
more: a call within the same task is told of the panic, and a call that waits for the chain from
elsewhere finds the promise broken, and is told that it is cancelled.

Main statements: throughout a history a completion is promised or its chain has been torn down
(`Engine.IsNew.fate`), so that a chain that owes one owes it to a caller who has been told nothing
(`Engine.IsNew.owes_of_mem`).
-/

namespace DurableFlow

namespace Account

variable {S : Standard} {k : CompletionId} {T : List Deed} {R : List (Option Reply)}
  {A B : Account} {s : Strand} {rest M : Multiset Strand} {dss : List (Chain × Deed)}
  {ts : List (CompletionId × Option Reply)}

/-- The chain that owed the completion has been torn down by a panic, before it settled. -/
structure Ruptured (A : Account) (k : CompletionId) (R : List (Option Reply)) : Prop where
  parties : A.parties k = 0
  settled : A.settled k = none
  lt_next : k.number < A.next
  /-- The caller has been told of the panic; or it waits elsewhere, where nobody tells it. -/
  caller : (∃ payload, R = [some (.panicked payload)]) ∧ A.waiting.count k = 0 ∨
    R.length + A.waiting.count k = 1 ∧
      ∀ x ∈ R, x = none ∨ x = some (.settled (.error (.fault .cancelled)))

namespace Ruptured

/-- Nobody has to do with the completion any more. -/
theorem not_party (h : A.Ruptured k R) (hA : A.strands = s ::ₘ rest) : ¬ s.IsParty k := by
  intro hs
  have hparties := h.parties
  rw [parties_of_pos hA hs] at hparties
  exact Multiset.cons_ne_zero hparties

theorem completion_ne (h : A.Ruptured k R) (hA : A.strands = s ::ₘ rest) :
    s.chain.completion ≠ some k := fun heq => h.not_party hA (.inl heq)

theorem receiver_ne (h : A.Ruptured k R) (hA : A.strands = s ::ₘ rest) :
    s.origin.receiver? ≠ some k := fun heq => h.not_party hA (.inr heq)

theorem mono (h : A.Ruptured k R) (hparties : B.parties k = A.parties k)
    (hwaiting : B.waiting.count k = A.waiting.count k) (hsettled : B.settled k = A.settled k)
    (hnext : A.next ≤ B.next) : B.Ruptured k R where
  parties := hparties.trans h.parties
  settled := hsettled.trans h.settled
  lt_next := Nat.lt_of_lt_of_le h.lt_next hnext
  caller := by
    rw [hwaiting]
    exact h.caller

/-- A strand is replaced by others that have nothing to do with the completion either. -/
theorem aside (h : A.Ruptured k R) (hA : A.strands = s ::ₘ rest)
    (hM : ∀ s' ∈ M, ¬ s'.IsParty k) (hB : B.strands = M + rest)
    (hwaiting : B.waiting.count k = A.waiting.count k) (hsettled : B.settled k = A.settled k)
    (hnext : B.next = A.next) : B.Ruptured k R := by
  refine h.mono ?_ hwaiting hsettled hnext.ge
  rw [Account.parties, hB, Multiset.filter_add, Multiset.filter_eq_nil.2 hM, Multiset.zero_add,
    parties_of_neg hA (h.not_party hA)]

/-- A call no longer waits: it is cut off, or told that it is cancelled. -/
theorem tell (h : A.Ruptured k R) {j : CompletionId} {x : Option Reply}
    {W : Multiset CompletionId} (hA : A.waiting = j ::ₘ W)
    (hx : x = none ∨ A.settled j ≠ none ∨ x = some (.settled (.error (.fault .cancelled))))
    (hstrands : B.strands = A.strands) (hwaiting : B.waiting = W)
    (hsettled : B.settled = A.settled) (hnext : B.next = A.next) :
    B.Ruptured k (R ++ Reply.to k [(j, x)]) := by
  have hparties : B.parties k = A.parties k := by rw [Account.parties, Account.parties, hstrands]
  by_cases hj : j = k
  · subst hj
    have hcount : A.waiting.count j = B.waiting.count j + 1 := by
      rw [hA, hwaiting, Multiset.count_cons_self]
    have hreply : Reply.to j [(j, x)] = [x] := by simp [Reply.to]
    obtain ⟨-, hzero⟩ | ⟨hone, -⟩ := h.caller
    · omega
    · have hR : R = [] := List.length_eq_zero_iff.1 (by omega)
      subst hR
      refine ⟨hparties.trans h.parties, hsettled ▸ h.settled, hnext ▸ h.lt_next, .inr ⟨?_, ?_⟩⟩
      · rw [hreply, List.nil_append, List.length_singleton]
        omega
      · intro y hy
        rw [hreply, List.nil_append, List.mem_singleton] at hy
        rw [hy]
        obtain hnone | hne | hcancelled := hx
        · exact .inl hnone
        · exact absurd h.settled hne
        · exact .inr hcancelled
  · have hreply : Reply.to k [(j, x)] = [] := by simp [Reply.to, hj]
    rw [hreply, List.append_nil]
    refine h.mono hparties ?_ (by rw [hsettled]) hnext.ge
    rw [hwaiting, hA, Multiset.count_cons_of_ne (Ne.symm hj)]

/-- **Nothing more is done for a completion whose chain has been torn down.** -/
theorem step (h : A.Ruptured k R) (hstep : Step S A dss ts B) :
    B.Ruptured k (R ++ Reply.to k ts) ∧ Deed.owing k dss = [] := by
  have silent : Reply.to k [] = [] := rfl
  have gone : ∀ s' ∈ (0 : Multiset Strand), ¬ s'.IsParty k := by simp
  have one : ∀ {s : Strand}, ¬ s.IsParty k → ∀ s' ∈ ({s} : Multiset Strand), ¬ s'.IsParty k :=
    fun hs s' hs' => Multiset.mem_singleton.1 hs' ▸ hs
  cases hstep with
  | number hn =>
    rw [silent, List.append_nil]
    exact ⟨h.mono rfl rfl rfl hn, rfl⟩
  | @go o c φ ds p c' φ' rest hA hd hgo hc hφ =>
    have hparty : ¬ Strand.IsParty k ⟨o, c', φ'⟩ := by
      rintro (heq | heq)
      · exact h.completion_ne hA (hc.symm.trans heq)
      · exact h.receiver_ne hA heq
    rw [silent, List.append_nil]
    exact ⟨h.aside hA (one hparty) (Multiset.singleton_add _ _).symm rfl rfl rfl,
      Deed.owing_of_ne (h.completion_ne hA) _⟩
  | @settle o c v es turn rest hA hd =>
    have hparty : ¬ Strand.IsParty k ⟨o, { c with completion := none }, .acting ⟨es, turn⟩⟩ := by
      rintro (heq | heq)
      · cases heq
      · exact h.receiver_ne hA heq
    rw [silent, List.append_nil]
    exact ⟨h.aside hA (one hparty) (Multiset.singleton_add _ _).symm rfl
      (settle_of_ne (h.completion_ne hA) v) rfl, Deed.owing_singleton_of_ne (h.completion_ne hA) _⟩
  | @suspend o c next due rest hA hd =>
    have hparty : ¬ Strand.IsParty k ⟨.continuation, c, .resting next⟩ := by
      rintro (heq | heq)
      · exact h.completion_ne hA heq
      · cases heq
    rw [silent, List.append_nil]
    refine ⟨h.aside hA (one hparty) (Multiset.singleton_add _ _).symm ?_ rfl rfl,
      Deed.owing_singleton_of_ne (h.completion_ne hA) _⟩
    rw [Multiset.count_add, count_receiver_of_ne (h.receiver_ne hA), Nat.zero_add]
  | @stop o c result rest hA =>
    rw [silent, List.append_nil]
    refine ⟨h.aside hA gone (Multiset.zero_add _).symm ?_ rfl rfl,
      Deed.owing_singleton_of_ne (h.completion_ne hA) _⟩
    rw [Multiset.count_add, count_receiver_of_ne (h.receiver_ne hA), Nat.zero_add]
  | haltCall hA ho =>
    rw [told_of_ne (h.receiver_ne hA), List.append_nil]
    exact ⟨h.aside hA gone (Multiset.zero_add _).symm rfl rfl rfl,
      Deed.owing_singleton_of_ne (h.completion_ne hA) _⟩
  | haltContinuation hA =>
    rw [silent, List.append_nil]
    exact ⟨h.aside hA gone (Multiset.zero_add _).symm rfl (settle_of_ne (h.completion_ne hA) _) rfl,
      Deed.owing_singleton_of_ne (h.completion_ne hA) _⟩
  | panic hA =>
    rw [told_of_ne (h.receiver_ne hA), List.append_nil]
    exact ⟨h.aside hA gone (Multiset.zero_add _).symm rfl rfl rfl,
      Deed.owing_singleton_of_ne (h.completion_ne hA) _⟩
  | lose hA =>
    rw [told_of_ne (h.receiver_ne hA), List.append_nil]
    exact ⟨h.aside hA gone (Multiset.zero_add _).symm rfl rfl rfl,
      Deed.owing_singleton_of_ne (h.completion_ne hA) _⟩
  | drop hA =>
    rw [silent, List.append_nil]
    exact ⟨h.aside hA gone (Multiset.zero_add _).symm rfl rfl rfl,
      Deed.owing_singleton_of_ne (h.completion_ne hA) _⟩
  | forget hA => exact ⟨h.tell hA (.inl rfl) rfl rfl rfl rfl, rfl⟩
  | tell hA hv => exact ⟨h.tell hA (.inr (.inl (by simp [hv]))) rfl rfl rfl rfl, rfl⟩
  | tellBroken hA hv hR => exact ⟨h.tell hA (.inr (.inr rfl)) rfl rfl rfl rfl, rfl⟩

/-- A run that starts has a completion of its own. -/
theorem starts (h : A.Ruptured k R) (hstarts : Starts S A dss B) :
    B.Ruptured k R ∧ Deed.owing k dss = [] := by
  cases hstarts with
  | @start q r c i hq hd hi hc =>
    have hne : c.completion ≠ some k := by
      intro heq
      obtain hnone | hfresh := hc
      · cases hnone.symm.trans heq
      · obtain rfl : ⟨A.next⟩ = k := Option.some.inj (hfresh.symm.trans heq)
        exact Nat.lt_irrefl _ h.lt_next
    refine ⟨h.mono ?_ rfl rfl (Nat.le_succ _), Deed.owing_singleton_of_ne hne _⟩
    exact parties_of_neg rfl (by rintro (heq | heq) <;> exact hne heq)

end Ruptured

/-- A panic that tears down the chain that owes the completion leaves nobody behind who does. -/
theorem Promise.ruptured (h : Promise k T R A) (hT : .panicked ∉ T) (hstep : Step S A dss ts B)
    (hd : .panicked ∈ Deed.owing k dss) : B.Ruptured k (R ++ Reply.to k ts) := by
  obtain ⟨c, hc, howner⟩ := Deed.mem_of.1 hd
  have howner : c.completion = some k := beq_iff_eq.1 howner
  cases hstep with
  | @go o c₁ φ ds p c' φ' rest hA hdef hgo hsame hφ =>
    obtain ⟨d, hdeed, heq⟩ := List.mem_map.1 hc
    cases heq
    cases hgo.not_final (hsame.trans howner) _ hdeed
  | @panic o c₁ i payload rest hA =>
    cases List.mem_singleton.1 hc
    obtain hpanicked | ⟨hrest, howes | ⟨hcloses, -⟩⟩ := h.of_party hA (.inl howner)
    · exact absurd hpanicked hT
    · refine ⟨hrest, howes.settled, howes.lt_next, ?_⟩
      obtain ⟨⟨r, rfl⟩, hcount, rfl⟩ | ⟨rfl, hone, hR⟩ := howes.caller
      · rw [told_of_eq rfl]
        exact .inl ⟨⟨payload, rfl⟩, hcount⟩
      · have hsilent : Reply.to k (told (fun _ => some (.panicked payload)) .continuation) = [] :=
          rfl
        rw [hsilent, List.append_nil]
        exact .inr ⟨hone, fun x hx => .inl (hR x hx)⟩
    · exact absurd howner hcloses.completion_ne
  | _ => simp at hc

/-- What is settled for a completion changes only by a chain that owes it. -/
theorem Step.settled_cases (h : Step S A dss ts B) (k : CompletionId) :
    B.settled k = A.settled k ∨
      ∃ s rest, A.strands = s ::ₘ rest ∧ s.chain.completion = some k := by
  cases h with
  | @settle o c v es turn rest hA hd =>
    by_cases hk : c.completion = some k
    · exact .inr ⟨_, rest, hA, hk⟩
    · exact .inl (settle_of_ne hk v)
  | @haltContinuation c fault rest hA =>
    by_cases hk : c.completion = some k
    · exact .inr ⟨_, rest, hA, hk⟩
    · exact .inl (settle_of_ne hk _)
  | _ => exact .inl rfl

/-- A settlement is made for the completion that the chain owes. -/
theorem Step.settles (h : Step S A dss ts B) {c : Chain} {v : Settlement}
    (hd : (c, .settled v) ∈ dss) (hk : c.completion = some k) : B.settled k = some v := by
  cases h with
  | @go o c₁ φ ds p c' φ' rest hA hdef hgo hsame hφ =>
    obtain ⟨d, hdeed, heq⟩ := List.mem_map.1 hd
    cases heq
    cases hgo.not_final (hsame.trans hk) _ hdeed
  | @settle o c₁ v₁ es turn rest hA hdef =>
    cases List.mem_singleton.1 hd
    show A.settle c.completion v k = some v
    rw [hk]
    exact Function.update_self ..
  | _ => simp at hd

/-- What has become of a completion: it is promised as long as no panic has torn its chain down. -/
inductive Fate (k : CompletionId) (T : List Deed) (R : List (Option Reply)) (A : Account) : Prop
  | promised (hT : .panicked ∉ T) (h : Promise k T R A)
  | ruptured (hT : .panicked ∈ T) (h : A.Ruptured k R)

namespace Fate

/-- Each step of an account either keeps a promise or ruptures it. -/
theorem step (h : Fate k T R A) (hstep : Step S A dss ts B) :
    Fate k (T ++ Deed.owing k dss) (R ++ Reply.to k ts) B := by
  cases h with
  | promised hT h =>
    by_cases hd : .panicked ∈ Deed.owing k dss
    · exact .ruptured (List.mem_append_right _ hd) (h.ruptured hT hstep hd)
    · exact .promised (by simp [hT, hd]) (h.step hstep)
  | ruptured hT h =>
    obtain ⟨hruptured, hnone⟩ := h.step hstep
    rw [hnone, List.append_nil]
    exact .ruptured hT hruptured

theorem steps (h : Fate k T R A) (hsteps : Steps S A dss ts B) :
    Fate k (T ++ Deed.owing k dss) (R ++ Reply.to k ts) B :=
  hsteps.keeps_told step h

theorem passes (h : Fate k T R A) (hpasses : Passes S A dss ts B) :
    Fate k (T ++ Deed.owing k dss) (R ++ Reply.to k ts) B := by
  cases hpasses with
  | steps hsteps => exact h.steps hsteps
  | start hstarts hts =>
    subst hts
    have silent : Reply.to k [] = [] := rfl
    rw [silent, List.append_nil]
    cases h with
    | promised hT h =>
      have hdeed : .panicked ∉ Deed.owing k dss := by
        intro hd
        obtain ⟨c, hc, -⟩ := Deed.mem_of.1 hd
        cases hstarts with
        | start hq hd hi hc' => simp at hc
      exact .promised (by simp [hT, hdeed]) (h.starts hstarts)
    | ruptured hT h =>
      obtain ⟨hruptured, hnone⟩ := h.starts hstarts
      rw [hnone, List.append_nil]
      exact .ruptured hT hruptured

/-- A strand that owes a completion is the one that its promise is about. -/
theorem owes (h : Fate k T R A) (hA : A.strands = s ::ₘ rest) (hk : s.chain.completion = some k) :
    .panicked ∉ T ∧ A.Owes k T R s := by
  cases h with
  | promised hT hpromise =>
    obtain hpanicked | ⟨-, howes | ⟨hcloses, -⟩⟩ := hpromise.of_party hA (.inl hk)
    · exact absurd hpanicked hT
    · exact ⟨hT, howes⟩
    · exact absurd hk hcloses.completion_ne
  | ruptured hT hruptured => exact absurd hk (hruptured.completion_ne hA)

/-- What a chain has settled stays so. -/
theorem settled_step (h : Fate k T R A) (hT : ∀ v, .settled v ∈ T → A.settled k = some v)
    (hstep : Step S A dss ts B) :
    ∀ v, .settled v ∈ T ++ Deed.owing k dss → B.settled k = some v := by
  intro v hv
  rcases List.mem_append.1 hv with hv | hv
  · obtain hsame | ⟨s, rest, hA, hk⟩ := hstep.settled_cases k
    · rw [hsame]
      exact hT v hv
    · cases (h.owes hA hk).2.final _ hv
  · obtain ⟨c, hc, hk⟩ := Deed.mem_of.1 hv
    exact hstep.settles hc (beq_iff_eq.1 hk)

theorem settled_passes (h : Fate k T R A) (hT : ∀ v, .settled v ∈ T → A.settled k = some v)
    (hpasses : Passes S A dss ts B) :
    ∀ v, .settled v ∈ T ++ Deed.owing k dss → B.settled k = some v := by
  cases hpasses with
  | start hstarts hts =>
    cases hstarts with
    | start hq hd hi hc =>
      intro v hv
      rcases List.mem_append.1 hv with hv | hv
      · exact hT v hv
      · obtain ⟨c, hc, -⟩ := Deed.mem_of.1 hv
        simp at hc
  | steps hsteps =>
    induction hsteps with
    | refl =>
      have nothing : Deed.owing k [] = [] := rfl
      rw [nothing, List.append_nil]
      exact hT
    | tail hsteps hstep ih =>
      rw [Deed.owing_append, ← List.append_assoc]
      exact (h.steps hsteps).settled_step ih hstep

end Fate

end Account

namespace Engine

variable {e : Engine} {as : List Act} {k : CompletionId}

/-- What is done in the course of a history is done by one of its acts. -/
theorem exists_of_mem_chronicle {x : Chain × Deed} (hx : x ∈ e.chronicle as) :
    ∃ before a after, as = before ++ a :: after ∧ x ∈ (e.after before).deeds a := by
  induction as generalizing e with
  | nil => cases hx
  | cons a as ih =>
    rcases List.mem_append.1 hx with hx | hx
    · exact ⟨[], a, as, rfl, hx⟩
    · obtain ⟨before, a', after, rfl, hdeed⟩ := ih hx
      exact ⟨a :: before, a', after, rfl, hdeed⟩

theorem mem_tale {d : Deed} (hd : d ∈ e.tale k as) :
    ∃ before a after c, as = before ++ a :: after ∧ c.completion = some k ∧
      (c, d) ∈ (e.after before).deeds a := by
  obtain ⟨c, hc, hk⟩ := Deed.mem_of.1 hd
  obtain ⟨before, a, after, has, hdeed⟩ := exists_of_mem_chronicle hc
  exact ⟨before, a, after, c, has, beq_iff_eq.1 hk, hdeed⟩

/-- **Throughout a history, a completion is promised, or its chain has been torn down.** -/
theorem IsNew.fate (h : e.IsNew) (k : CompletionId) (as : List Act) :
    Account.Fate k (e.tale k as) (e.answers k as) (e.after as).account := by
  induction as using List.reverseRecOn with
  | nil => exact .promised List.not_mem_nil (h.promise k [])
  | append_singleton as a ih =>
    have hsound : (e.after as).Sound .any := (h.sound .any).after_any as
    obtain ⟨-, hpasses⟩ := hsound.act a.meets_any
    rw [tale_concat, answers_concat, after_concat]
    exact ih.passes hpasses

/-- **A strand that owes a completion is the one that its promise is about.** -/
theorem IsNew.owes_of_mem (h : e.IsNew) {s : Strand} (hs : s ∈ (e.after as).account.strands)
    (hk : s.chain.completion = some k) :
    .panicked ∉ e.tale k as ∧ (e.after as).account.Owes k (e.tale k as) (e.answers k as) s := by
  obtain ⟨rest, hrest⟩ := Multiset.exists_cons_of_mem hs
  exact (h.fate k as).owes hrest hk

/-- **A chain settles its completion once and for all.** -/
theorem IsNew.settled_of_mem_tale (h : e.IsNew) {v : Settlement} (hv : .settled v ∈ e.tale k as) :
    (e.after as).settled.get? k = some v := by
  induction as using List.reverseRecOn generalizing v with
  | nil => cases hv
  | append_singleton as a ih =>
    have hsound : (e.after as).Sound .any := (h.sound .any).after_any as
    obtain ⟨-, hpasses⟩ := hsound.act a.meets_any
    rw [tale_concat] at hv
    rw [after_concat]
    exact (h.fate k as).settled_passes (fun _ => ih) hpasses v hv

/-- A call that waits for a chain that has settled is about to be told. -/
theorem IsNew.isTelling_of_settled (h : e.IsNew) {v : Settlement} (hv : .settled v ∈ e.tale k as)
    {t : Task} (ht : t ∈ (e.after as).tasks) {r : RunnerId} {below : List Frame}
    (hframes : t.frames = .receiving r k :: below) : (e.after as).IsTelling t k v := by
  have hsettled := h.settled_of_mem_tale hv
  have hwaiting : 0 < (e.after as).account.waiting.count k := by
    refine Multiset.count_pos.2 (List.mem_filterMap.2 ⟨.receiving r k, ?_, rfl⟩)
    exact List.mem_flatMap.2 ⟨t, ht, hframes ▸ List.mem_cons_self⟩
  cases h.fate k as with
  | ruptured hT hruptured => cases hruptured.settled.symm.trans hsettled
  | promised hT hpromise =>
    cases hpromise with
    | unmade hT hR hp hw hs =>
      rw [hT] at hv
      cases hv
    | owed hp ho => cases ho.final _ hv
    | closing hp hc hR => exact absurd hc.waiting hwaiting.ne'
    | decided hp hd hn =>
      have howed := (Bool.or_eq_false_iff.1 (isUnderway_eq_false_iff.2 hp)).1
      have hsound : (e.after as).Sound .any := (h.sound .any).after_any as
      exact hsound.isTelling_of_decided ht hframes howed (.inl hsettled)
    | panicked hpanicked => exact absurd hpanicked hT

end Engine

end DurableFlow
