import DurableFlow.Proofs.Families.MemberNumbers
import DurableFlow.Proofs.Positions.Restarts
import DurableFlow.Proofs.Settlement.WaitingCallers

/-!
# Stories with their chains

The saga of an instance is its story with the chains that did the deeds. It shifts by what an act
does for the instance (`Engine.Course.shifts_act`), and it is what shifts one after the other make
of an instance without a chain (`Engine.Course.shifts`).

Main statements: of the last run, if its caller waits, the deeds that are done for as long as the
answer is owed are those up to the settlement (`Engine.Course.tale_eq_owed`); and where nothing
moves any more, a chain rests or is within a step (`Engine.IsNew.isInside_of_isAtRest`), and who
waits for an answer that is decided has been told (`Engine.IsNew.answers_of_isAtRest`).
-/

namespace DurableFlow

namespace Deed

/-- Whether a caller is told by this deed. -/
def isSettled : Deed → Bool
  | .settled _ => true
  | _ => false

/-- The deeds up to the one by which a caller is told. -/
def owed : List Deed → List Deed
  | [] => []
  | d :: l => d :: if d.isSettled then [] else owed l

theorem owed_concat_of_any {l : List Deed} (h : l.any isSettled = true) (l' : List Deed) :
    owed (l ++ l') = owed l := by
  induction l with
  | nil => cases h
  | cons d l ih =>
    cases hd : d.isSettled with
    | true => simp [owed, hd]
    | false =>
      rw [List.any_cons, hd, Bool.false_or] at h
      simp [owed, hd, ih h]

theorem owed_of_not_any {l : List Deed} (h : l.any isSettled = false) (l' : List Deed) :
    owed (l ++ l') = l ++ owed l' := by
  induction l with
  | nil => rfl
  | cons d l ih =>
    rw [List.any_cons, Bool.or_eq_false_iff] at h
    simp [owed, h.1, ih h.2]

theorem owed_prefix (l : List Deed) : owed l <+: l := by
  induction l with
  | nil => exact List.prefix_refl _
  | cons d l ih =>
    cases hd : d.isSettled with
    | true => simp [owed, hd]
    | false => simpa [owed, hd] using ih

end Deed

/-- A chain owes its completion until it settles. -/
theorem Goes.completion_eq {p p' : Nat} {c c' : Chain} {φ φ' : Phase} {ds : List Deed}
    (h : Goes p c φ ds p' c' φ') :
    c'.completion = if ds.any Deed.isSettled then none else c.completion := by
  cases h <;> rfl

theorem Shift.deeds_cases {D : Definition} {x : String} {st st' : Option (Chain × Phase)}
    {p p' : Nat} {ds : List (Chain × Deed)} (h : Shift D x st p ds st' p') :
    ds = [] ∨ ∃ d, ds = [d] := by
  cases h with
  | still => exact .inl rfl
  | start => exact .inr ⟨_, rfl⟩
  | go hgo =>
    obtain rfl | ⟨d, rfl⟩ := hgo.deeds_cases
    · exact .inl rfl
    · exact .inr ⟨_, rfl⟩
  | ended => exact .inr ⟨_, rfl⟩

/-- A start is the start of a chain where there was none. -/
theorem Shift.of_started {D : Definition} {x : String} {st st' : Option (Chain × Phase)}
    {p p' q : Nat} {c : Chain} (h : Shift D x st p [(c, .started q)] st' p') :
    st = none ∧ p = q := by
  generalize hds : [(c, Deed.started q)] = ds at h
  cases h with
  | still => cases hds
  | start =>
    cases hds
    exact ⟨rfl, rfl⟩
  | @go _ _ _ ds _ _ _ hgo =>
    obtain rfl | ⟨d, rfl⟩ := hgo.deeds_cases
    · cases hds
    · cases hds
      cases hgo
  | ended hd =>
    cases hds
    cases hd

/-- What becomes of the chain of an instance and of its position, shift after shift. -/
inductive Shifts (D : Definition) (x : String) (st : Option (Chain × Phase)) (p : Nat) :
    List (Chain × Deed) → Option (Chain × Phase) → Nat → Prop
  | refl : Shifts D x st p [] st p
  | tail {l ds st' p' st'' p''} (h : Shifts D x st p l st' p') (hs : Shift D x st' p' ds st'' p'') :
      Shifts D x st p (l ++ ds) st'' p''

namespace Shifts

variable {D : Definition} {x : String} {st st' st'' : Option (Chain × Phase)} {p p' p'' : Nat}
  {l l' : List (Chain × Deed)} {k : CompletionId} {c : Chain}

theorem one (h : Shift D x st p l st' p') : Shifts D x st p l st' p' := by
  rw [← List.nil_append l]
  exact .tail .refl h

theorem trans (h : Shifts D x st p l st' p') (h' : Shifts D x st' p' l' st'' p'') :
    Shifts D x st p (l ++ l') st'' p'' := by
  induction h' with
  | refl => rwa [List.append_nil]
  | tail _ hs ih =>
    rw [← List.append_assoc]
    exact ih.tail hs

/-- Chains are of the definition. -/
theorem definition_eq (h : Shifts D x st p l st' p')
    (hst : ∀ c φ, st = some (c, φ) → c.definition = D) :
    ∀ c φ, st' = some (c, φ) → c.definition = D := by
  induction h with
  | refl => exact hst
  | tail _ hs ih =>
    intro c φ heq
    cases hs with
    | still => exact ih c φ heq
    | start _ hc _ =>
      cases heq
      exact hc
    | go hgo =>
      cases heq
      exact hgo.definition_eq.trans (ih _ _ rfl)
    | ended => cases heq

/-- Without the chains, a saga is a story. -/
theorem story (h : Shifts D x none p l st' p') : Story D x p (l.map Prod.snd) st' p' := by
  induction h with
  | refl => exact .nil
  | tail _ hs ih =>
    rw [List.map_append]
    exact ih.shift hs

/-- There is no chain before something has been done. -/
theorem eq_none (h : Shifts D x none p [] st' p') : st' = none := by
  generalize hl : ([] : List (Chain × Deed)) = l at h
  induction h with
  | refl => rfl
  | tail _ hs ih =>
    obtain ⟨hnil, rfl⟩ := List.append_eq_nil_iff.1 hl.symm
    obtain rfl := ih hnil.symm
    cases hs
    rfl

/-- What is done can be cut before and behind a deed. -/
theorem split (h : Shifts D x st p l st' p') {l₁ l₂ : List (Chain × Deed)} {d : Chain × Deed}
    (hl : l = l₁ ++ d :: l₂) :
    ∃ st₁ p₁ st₂ p₂, Shifts D x st p l₁ st₁ p₁ ∧ Shift D x st₁ p₁ [d] st₂ p₂ ∧
      Shifts D x st₂ p₂ l₂ st' p' := by
  induction h generalizing l₂ with
  | refl => simp at hl
  | @tail l ds st' p' _ _ h hs ih =>
    obtain rfl | ⟨d', rfl⟩ := hs.deeds_cases
    · rw [List.append_nil] at hl
      obtain ⟨st₁, p₁, st₂, p₂, h₁, hd, h₂⟩ := ih hl
      refine ⟨st₁, p₁, st₂, p₂, h₁, hd, ?_⟩
      rw [← List.append_nil l₂]
      exact h₂.tail hs
    · rcases List.eq_nil_or_concat l₂ with rfl | ⟨l₃, d'', rfl⟩
      · obtain ⟨rfl, hd⟩ := List.append_inj' hl rfl
        rw [(List.cons.inj hd).1] at hs
        exact ⟨st', p', _, _, h, hs, .refl⟩
      · rw [List.concat_eq_append, ← List.cons_append, ← List.append_assoc] at hl
        obtain ⟨hl, hd⟩ := List.append_inj' hl rfl
        obtain ⟨st₁, p₁, st₂, p₂, h₁, hd₁, h₂⟩ := ih hl
        refine ⟨st₁, p₁, st₂, p₂, h₁, hd₁, ?_⟩
        rw [List.concat_eq_append, ← hd]
        exact h₂.tail hs

/-- What a chain does while it still owes the completion comes up to the settlement. -/
theorem owed_go {l : List (Chain × Deed)} (ds : List Deed) (hds : ds = [] ∨ ∃ d, ds = [d])
    (hl : Deed.of (fun c => c.completion == some k) l = Deed.owed (l.map Prod.snd))
    (hc : c.completion = if (l.map Prod.snd).any Deed.isSettled then none else some k) :
    Deed.of (fun c => c.completion == some k) (l ++ ds.map (c, ·)) =
      Deed.owed ((l ++ ds.map (c, ·)).map Prod.snd) := by
  have hdeeds : (ds.map (c, ·)).map Prod.snd = ds := by
    rw [List.map_map]
    exact List.map_id ds
  rw [Deed.of_append, hl, List.map_append, hdeeds]
  cases hany : (l.map Prod.snd).any Deed.isSettled with
  | true =>
    rw [hany, if_pos rfl] at hc
    rw [Deed.owed_concat_of_any hany, Deed.of_map_of_neg (by simp [hc]), List.append_nil]
  | false =>
    rw [hany, if_neg Bool.false_ne_true] at hc
    have hself : Deed.owed (l.map Prod.snd) = l.map Prod.snd := by
      simpa [Deed.owed] using Deed.owed_of_not_any hany []
    rw [Deed.owed_of_not_any hany, Deed.of_map_of_pos (by simp [hc]), hself]
    obtain rfl | ⟨d, rfl⟩ := hds
    · rfl
    · simp [Deed.owed]

/-- A chain that starts as it owes a completion owes it up to its first settlement. -/
theorem owed (h : Shifts D x none p l st' p') {q : Nat} {rest : List (Chain × Deed)}
    (hl : l = (c, .started q) :: rest) (hsingle : ∀ d ∈ rest, d.2.isStart = false)
    (hk : c.completion = some k) :
    Deed.of (fun c => c.completion == some k) l = Deed.owed (l.map Prod.snd) ∧
      ∀ c' φ, st' = some (c', φ) →
        c'.completion = if (l.map Prod.snd).any Deed.isSettled then none else some k := by
  induction h generalizing rest with
  | refl => cases hl
  | @tail l₁ ds _ _ _ _ h hs ih =>
    cases l₁ with
    | nil =>
      obtain rfl := h.eq_none
      cases hs with
      | still => cases hl
      | start =>
        obtain ⟨⟨rfl, -⟩, -⟩ := (List.cons.injEq .. ▸ hl).imp_left Prod.mk.inj
        refine ⟨owed_go [.started _] (.inr ⟨_, rfl⟩) rfl hk, ?_⟩
        rintro c' φ ⟨⟩
        exact hk
    | cons cd l₂ =>
      obtain ⟨rfl, rfl⟩ := List.cons.inj hl
      obtain ⟨hof, hst⟩ := ih rfl fun d hd => hsingle d (List.mem_append_left _ hd)
      cases hs with
      | still =>
        rw [List.append_nil]
        exact ⟨hof, hst⟩
      | start => cases hsingle _ (List.mem_append_right _ (List.mem_singleton_self _))
      | @go c₁ φ₁ _ ds _ c' φ' hgo =>
        have hc := hst c₁ φ₁ rfl
        refine ⟨owed_go ds hgo.deeds_cases hof hc, ?_⟩
        rintro c'' φ ⟨⟩
        have hdeeds : (ds.map (c₁, ·)).map Prod.snd = ds := by
          rw [List.map_map]
          exact List.map_id ds
        rw [hgo.completion_eq, hc, List.map_append, List.any_append, hdeeds]
        cases ds.any Deed.isSettled with
        | true => rw [Bool.or_true]; rfl
        | false => rw [Bool.or_false]; rfl
      | @ended c₁ φ₁ _ d hd =>
        exact ⟨owed_go [d] (.inr ⟨d, rfl⟩) hof (hst c₁ φ₁ rfl), nofun⟩

end Shifts

/-- Whoever does something was there before, and whoever is there afterwards was there before too, as
a strand of the same instance that had to do with the same completions. -/
theorem Account.Step.traced {A B : Account} {ds : List (Chain × Deed)}
    {ts : List (CompletionId × Option Reply)} (h : Account.Step .loyal A ds ts B) :
    (∀ d ∈ ds, ∃ s ∈ A.strands, s.chain = d.1) ∧
      ∀ s' ∈ B.strands, ∃ s ∈ A.strands, s'.chain.inst = s.chain.inst ∧
        ∀ k, s'.IsParty k → s.IsParty k := by
  have nothing : ∀ d ∈ ([] : List (Chain × Deed)), ∃ s ∈ A.strands, s.chain = d.1 := by simp
  have still : ∀ s' ∈ A.strands, ∃ s ∈ A.strands, s'.chain.inst = s.chain.inst ∧
      ∀ k, s'.IsParty k → s.IsParty k := fun s hs => ⟨s, hs, rfl, fun _ => id⟩
  have done : ∀ {s : Strand} {R : Multiset Strand} {ds : List Deed}, A.strands = s ::ₘ R →
      ∀ d ∈ ds.map (s.chain, ·), ∃ s ∈ A.strands, s.chain = d.1 := by
    intro s R ds hA d hd
    obtain ⟨_, -, rfl⟩ := List.mem_map.1 hd
    exact ⟨s, hA ▸ Multiset.mem_cons_self _ _, rfl⟩
  have did : ∀ {s : Strand} {R : Multiset Strand} (d : Deed), A.strands = s ::ₘ R →
      ∀ d' ∈ [(s.chain, d)], ∃ s ∈ A.strands, s.chain = d'.1 := by
    intro s R d hA d' hd'
    rw [List.mem_singleton.1 hd']
    exact ⟨s, hA ▸ Multiset.mem_cons_self _ _, rfl⟩
  have goes : ∀ {s s' : Strand} {R : Multiset Strand}, A.strands = s ::ₘ R →
      s'.chain.inst = s.chain.inst → (∀ k, s'.IsParty k → s.IsParty k) →
      ∀ s'' ∈ s' ::ₘ R, ∃ s ∈ A.strands, s''.chain.inst = s.chain.inst ∧
        ∀ k, s''.IsParty k → s.IsParty k := by
    intro s s' R hA hinst hparty s'' hs''
    rcases Multiset.mem_cons.1 hs'' with rfl | hs''
    · exact ⟨s, hA ▸ Multiset.mem_cons_self _ _, hinst, hparty⟩
    · exact still s'' (hA ▸ Multiset.mem_cons_of_mem hs'')
  have gone : ∀ {s : Strand} {R : Multiset Strand}, A.strands = s ::ₘ R →
      ∀ s'' ∈ R, ∃ s ∈ A.strands, s''.chain.inst = s.chain.inst ∧
        ∀ k, s''.IsParty k → s.IsParty k :=
    fun hA s'' hs'' => still s'' (hA ▸ Multiset.mem_cons_of_mem hs'')
  cases h with
  | number => exact ⟨nothing, still⟩
  | go h hd hgo hc =>
    refine ⟨done h, goes h (hgo.inst_eq hd) fun k hparty => ?_⟩
    rw [Strand.IsParty, hc] at hparty
    exact hparty
  | settle h =>
    refine ⟨did _ h, goes h rfl fun k hparty => ?_⟩
    obtain hnone | hreceiver := hparty
    · cases hnone
    · exact .inr hreceiver
  | suspend h =>
    refine ⟨did _ h, goes h rfl fun k hparty => ?_⟩
    obtain howner | hnone := hparty
    · exact .inl howner
    · cases hnone
  | stop h => exact ⟨did _ h, gone h⟩
  | haltCall h => exact ⟨did _ h, gone h⟩
  | haltContinuation h => exact ⟨did _ h, gone h⟩
  | panic h => exact ⟨did _ h, gone h⟩
  | lose h => exact ⟨did _ h, gone h⟩
  | drop h => exact ⟨did _ h, gone h⟩
  | forget => exact ⟨nothing, still⟩
  | tell => exact ⟨nothing, still⟩
  | tellBroken => exact ⟨nothing, still⟩

/-- Only a run that begins starts a chain. -/
theorem Account.Steps.not_started {S : Standard} {A B : Account} {ds : List (Chain × Deed)}
    {ts : List (CompletionId × Option Reply)} (h : Account.Steps S A ds ts B) :
    ∀ d ∈ ds, d.2.isStart = false := by
  induction h with
  | refl => simp
  | tail _ hstep ih =>
    intro d hd
    rcases List.mem_append.1 hd with hd | hd
    · exact ih d hd
    · cases hstep with
      | go _ _ hgo _ _ =>
        obtain ⟨d', hd', rfl⟩ := List.mem_map.1 hd
        cases hgo <;> simp_all [Deed.isStart]
      | _ => simp_all [Deed.isStart]

namespace Engine

/-- What is done for an instance in the course of a history, with the chains as they were then. -/
def saga (e : Engine) (x : String) (as : List Act) : List (Chain × Deed) :=
  Deed.about x (e.chronicle as)

/-- The chains of the instance are none, or this one in its phase. -/
def Bears (e : Engine) (x : String) (st : Option (Chain × Phase)) : Prop :=
  pairsOf x e.account.pairs = (st.toList : Multiset (Chain × Phase))

variable {e : Engine} {D : Definition} {x : String} {as : List Act} {a : Act}
  {st : Option (Chain × Phase)} {c : Chain} {k : CompletionId}

theorem map_snd_saga (e : Engine) (x : String) (as : List Act) :
    (e.saga x as).map Prod.snd = e.story x as := rfl

theorem saga_concat (e : Engine) (x : String) (as : List Act) (a : Act) :
    e.saga x (as ++ [a]) = e.saga x as ++ Deed.about x ((e.after as).deeds a) := by
  rw [saga, chronicle_concat, Deed.about_append]
  rfl

theorem saga_mono (e : Engine) (x : String) {as bs : List Act} (h : as <+: bs) :
    e.saga x as <+: e.saga x bs := by
  obtain ⟨cs, rfl⟩ := h
  rw [saga, saga, chronicle_append, Deed.about_append]
  exact List.prefix_append _ _

/-- What is done for the instance by an act of a history belongs to its saga. -/
theorem mem_saga {before : List Act} (hle : before ++ [a] <+: as) {s : Chain × Deed}
    (hs : s ∈ (e.after before).deeds a) (hx : s.1.inst = x) : s ∈ e.saga x as := by
  obtain ⟨after, rfl⟩ := hle
  rw [List.append_assoc]
  exact List.mem_filter.2 ⟨mem_chronicle hs after, beq_iff_eq.2 hx⟩

/-- For an instance that is not cut off, an act does one deed at most. -/
theorem length_about_le (hlost : ∀ s ∈ Deed.about x (e.deeds a), s.2 ≠ .lost) :
    (Deed.about x (e.deeds a)).length ≤ 1 := by
  obtain hnone | ⟨c, d, hone⟩ | ⟨fs, hlosses⟩ := e.deeds_cases a
  · rw [hnone]
    exact Nat.zero_le 1
  · rw [hone]
    exact List.length_filter_le ..
  · have hnil : Deed.about x (e.deeds a) = [] := by
      refine List.eq_nil_iff_forall_not_mem.2 fun s hs => hlost s hs ?_
      have hmem := (List.mem_filter.1 hs).1
      rw [hlosses] at hmem
      obtain ⟨c, -, rfl⟩ := List.mem_map.1 hmem
      rfl
    rw [hnil]
    exact Nat.zero_le 1

/-- The chain that an engine bears is one of its chains. -/
theorem Bears.mem_chains {φ : Phase} (h : e.Bears x (some (c, φ))) : c ∈ e.chains ∧ c.inst = x := by
  have hmem : (c, φ) ∈ pairsOf x e.account.pairs := by
    rw [h]
    exact Multiset.mem_coe.2 (List.mem_singleton_self _)
  obtain ⟨hpair, hx⟩ := Multiset.mem_filter.1 hmem
  have hchain : c ∈ e.account.pairs.map Prod.fst := Multiset.mem_map_of_mem Prod.fst hpair
  rw [map_fst_pairs] at hchain
  exact ⟨hchain, hx⟩

/-- Any chain of the instance is the one that the engine bears. -/
theorem Bears.eq_of_mem (h : e.Bears x st) (hc : c ∈ e.chains) (hx : c.inst = x) :
    ∃ φ, st = some (c, φ) := by
  rw [← Multiset.mem_coe, ← map_fst_pairs] at hc
  obtain ⟨⟨c', φ⟩, hmem, rfl⟩ := Multiset.mem_map.1 hc
  have hpair : (c', φ) ∈ pairsOf x e.account.pairs := Multiset.mem_filter.2 ⟨hmem, hx⟩
  rw [h] at hpair
  exact ⟨φ, Option.mem_toList.1 hpair⟩

theorem Bears.unique {st' : Option (Chain × Phase)} (h : e.Bears x st) (h' : e.Bears x st') :
    st = st' := by
  have heq : (st.toList : Multiset (Chain × Phase)) = (st'.toList : Multiset (Chain × Phase)) :=
    h.symm.trans h'
  cases st with
  | none =>
    cases st' with
    | none => rfl
    | some s => cases (Multiset.coe_eq_zero _).1 heq.symm
  | some s =>
    have hmem : s ∈ (st'.toList : Multiset (Chain × Phase)) := by
      rw [← heq]
      exact Multiset.mem_coe.2 (List.mem_singleton_self _)
    exact (Option.mem_toList.1 (Multiset.mem_coe.1 hmem)).symm

namespace Course

/-- **What an act does for an instance is a sequence of shifts.** -/
theorem shifts_act (h : e.Course D x (as ++ [a])) (hst : (e.after as).Bears x st) :
    ∃ st', Shifts D x st ((e.after as).position x) (Deed.about x ((e.after as).deeds a)) st'
        ((e.after (as ++ [a])).position x) ∧ (e.after (as ++ [a])).Bears x st' := by
  obtain ⟨hpasses, hhosts⟩ := h.passes_last
  rw [after_concat]
  cases hpasses with
  | start hstart _ =>
    obtain ⟨st', hshift, hst'⟩ := hstart.shift hst hhosts.card_le hhosts.definition_eq
    exact ⟨st', .one hshift, hst'⟩
  | steps hsteps =>
    suffices hall : ∀ {A B : Account} {ds ts}, Account.Steps .loyal A ds ts B →
        pairsOf x A.pairs = (st.toList : Multiset (Chain × Phase)) →
        ∃ st', Shifts D x st (A.position x) (Deed.about x ds) st' (B.position x) ∧
          pairsOf x B.pairs = (st'.toList : Multiset (Chain × Phase)) from hall hsteps hst
    intro A B ds ts hsteps hA
    induction hsteps with
    | refl => exact ⟨st, .refl, hA⟩
    | tail _ hstep ih =>
      obtain ⟨st₁, hshifts, hst₁⟩ := ih
      obtain ⟨st₂, hshift, hst₂⟩ := hstep.changes.shift D hst₁
      rw [Deed.about_append]
      exact ⟨st₂, hshifts.tail hshift, hst₂⟩

/-- **The saga of an instance is a sequence of shifts.** -/
theorem shifts (h : e.Course D x as) :
    ∃ st, Shifts D x none (e.position x) (e.saga x as) st ((e.after as).position x) ∧
      (e.after as).Bears x st := by
  induction as using List.reverseRecOn with
  | nil =>
    refine ⟨none, .refl, ?_⟩
    rw [after_nil, Bears, h.new.pairs_eq]
    rfl
  | append_singleton as a ih =>
    obtain ⟨st, hshifts, hst⟩ := ih h.left
    obtain ⟨st', hshifts', hst'⟩ := h.shifts_act hst
    rw [saga_concat]
    exact ⟨st', hshifts.trans hshifts', hst'⟩

end Course

/-! ## Completions and instances -/

/-- Those who have to do with a completion that has been promised are of one instance only. -/
structure Ascribes (k : CompletionId) (x : String) (l : List (Chain × Deed)) (A : Account) :
    Prop where
  strands : ∀ s ∈ A.strands, s.IsParty k → s.chain.inst = x
  deeds : ∀ d ∈ l, d.1.completion = some k → d.1.inst = x
  fresh : A.next ≤ k.number →
    (∀ s ∈ A.strands, ¬ s.IsParty k) ∧ ∀ d ∈ l, d.1.completion ≠ some k

namespace Ascribes

variable {A B : Account} {l ds : List (Chain × Deed)} {ts : List (CompletionId × Option Reply)}

theorem step (h : Ascribes k x l A) (hstep : Account.Step .loyal A ds ts B) :
    Ascribes k x (l ++ ds) B := by
  obtain ⟨hds, hstrands⟩ := hstep.traced
  refine ⟨?_, ?_, fun hle => ?_⟩
  · intro s' hs' hparty
    obtain ⟨s, hs, hinst, hmono⟩ := hstrands s' hs'
    exact hinst.trans (h.strands s hs (hmono k hparty))
  · intro d hd hk
    rcases List.mem_append.1 hd with hd | hd
    · exact h.deeds d hd hk
    · obtain ⟨s, hs, hchain⟩ := hds d hd
      rw [← hchain] at hk ⊢
      exact h.strands s hs (.inl hk)
  · obtain ⟨hnone, hdeeds⟩ := h.fresh (hstep.next_le.trans hle)
    constructor
    · intro s' hs' hparty
      obtain ⟨s, hs, -, hmono⟩ := hstrands s' hs'
      exact hnone s hs (hmono k hparty)
    · intro d hd hk
      rcases List.mem_append.1 hd with hd | hd
      · exact hdeeds d hd hk
      · obtain ⟨s, hs, hchain⟩ := hds d hd
        rw [← hchain] at hk
        exact hnone s hs (.inl hk)

theorem steps (h : Ascribes k x l A) (hsteps : Account.Steps .loyal A ds ts B) :
    Ascribes k x (l ++ ds) B := by
  induction hsteps with
  | refl => rwa [List.append_nil]
  | tail _ hstep ih =>
    rw [← List.append_assoc]
    exact ih.step hstep

/-- A run that begins promises a completion that nobody has to do with. -/
theorem starts (h : Ascribes k x l A) (hstarts : Account.Starts .loyal A ds B) :
    ∃ y, Ascribes k y (l ++ ds) B := by
  cases hstarts with
  | @start q r c i hq hd hi hc =>
    have hparty : Strand.IsParty k ⟨.call r c.completion, c, .entering i⟩ ↔
        c.completion = some k := or_self_iff
    have hstrand : ∀ s ∈ (⟨.call r c.completion, c, .entering i⟩ : Strand) ::ₘ A.strands,
        s.IsParty k → c.completion = some k ∧ s.chain = c ∨ s ∈ A.strands := by
      intro s hs hparty'
      rcases Multiset.mem_cons.1 hs with rfl | hs
      · exact .inl ⟨hparty.1 hparty', rfl⟩
      · exact .inr hs
    have hdeed : ∀ d ∈ l ++ [(c, Deed.started i)], d.1 = c ∨ d ∈ l := by
      intro d hd
      rcases List.mem_append.1 hd with hd | hd
      · exact .inr hd
      · rw [List.mem_singleton.1 hd]
        exact .inl rfl
    by_cases hk : c.completion = some k
    · obtain hnone | hsome := hc
      · rw [hnone] at hk
        cases hk
      · obtain rfl : k = ⟨A.next⟩ := Option.some.inj (hk.symm.trans hsome)
        obtain ⟨hstrands, hdeeds⟩ := h.fresh le_rfl
        refine ⟨c.inst, ?_, ?_, fun hle => absurd hle (Nat.not_succ_le_self _)⟩
        · intro s hs hs'
          obtain ⟨-, heq⟩ | hs := hstrand s hs hs'
          · rw [heq]
          · exact absurd hs' (hstrands s hs)
        · intro d hd hd'
          obtain heq | hd := hdeed d hd
          · rw [heq]
          · exact absurd hd' (hdeeds d hd)
    · refine ⟨x, ?_, ?_, fun hle => ⟨?_, ?_⟩⟩
      · intro s hs hs'
        obtain ⟨heq, -⟩ | hs := hstrand s hs hs'
        · exact absurd heq hk
        · exact h.strands s hs hs'
      · intro d hd hd'
        obtain heq | hd := hdeed d hd
        · exact absurd (heq ▸ hd') hk
        · exact h.deeds d hd hd'
      · intro s hs hs'
        obtain ⟨heq, -⟩ | hs := hstrand s hs hs'
        · exact hk heq
        · exact (h.fresh (Nat.le_of_succ_le hle)).1 s hs hs'
      · intro d hd hd'
        obtain heq | hd := hdeed d hd
        · exact hk (heq ▸ hd')
        · exact (h.fresh (Nat.le_of_succ_le hle)).2 d hd hd'

end Ascribes

/-- **Whoever has to do with a completion is of the same instance.** -/
theorem IsNew.ascribes (h : e.IsNew) (has : ∀ a ∈ as, a.Meets .loyal) (k : CompletionId) :
    ∃ x, Ascribes k x (e.chronicle as) (e.after as).account := by
  induction as using List.reverseRecOn with
  | nil =>
    have hstrands : e.account.strands = 0 := Multiset.map_eq_zero.1 h.pairs_eq
    rw [after_nil]
    exact ⟨"", by simp [hstrands], by simp [chronicle], fun _ =>
      ⟨by simp [hstrands], by simp [chronicle]⟩⟩
  | append_singleton as a ih =>
    obtain ⟨x, hx⟩ := ih fun b hb => has b (List.mem_append_left _ hb)
    have hsound : (e.after as).Sound .loyal :=
      (h.sound .loyal).after fun b hb => has b (List.mem_append_left _ hb)
    obtain ⟨-, hpasses⟩ := hsound.act (has a (List.mem_append_right _ List.mem_cons_self))
    rw [chronicle_concat, after_concat]
    cases hpasses with
    | start hstart _ => exact hx.starts hstart
    | steps hsteps => exact ⟨x, hx.steps hsteps⟩

/-- A completion is promised by a start only, and nobody had to do with it before. -/
theorem IsNew.fresh_of_started (h : e.IsNew) (has : ∀ a ∈ as, a.Meets .loyal) {q : Nat}
    {l l' : List (Chain × Deed)} (hl : e.chronicle as = l ++ (c, .started q) :: l')
    (hk : c.completion = some k) : ∀ d ∈ l, d.1.completion ≠ some k := by
  induction as using List.reverseRecOn generalizing l' with
  | nil => simp [chronicle] at hl
  | append_singleton as a ih =>
    have hbefore : ∀ b ∈ as, b.Meets .loyal := fun b hb => has b (List.mem_append_left _ hb)
    obtain ⟨-, hpasses⟩ := ((h.sound .loyal).after hbefore).act
      (has a (List.mem_append_right _ List.mem_cons_self))
    rw [chronicle_concat] at hl
    obtain ⟨m, rfl, hdeeds⟩ | ⟨m, hm⟩ : (∃ m, l = e.chronicle as ++ m ∧
        (e.after as).deeds a = m ++ (c, .started q) :: l') ∨
          ∃ m, e.chronicle as = l ++ (c, .started q) :: m := by
      obtain ⟨m, hm, hdeeds⟩ | ⟨m, hm, hrest⟩ := List.append_eq_append_iff.1 hl
      · exact .inl ⟨m, hm, hdeeds⟩
      · cases m with
        | nil => exact .inl ⟨[], by rw [hm, List.append_nil, List.append_nil], hrest.symm⟩
        | cons d m =>
          obtain ⟨rfl, -⟩ := List.cons.inj hrest
          exact .inr ⟨m, hm⟩
    case inr => exact ih hbefore hm
    have hmem : (c, Deed.started q) ∈ (e.after as).deeds a := by
      rw [hdeeds]
      exact List.mem_append_right _ List.mem_cons_self
    cases hpasses with
    | steps hsteps => cases hsteps.not_started _ hmem
    | start hstart _ =>
      generalize (e.after as).deeds a = ds at hstart hdeeds hmem
      generalize ((e.after as).act a).account = B at hstart
      cases hstart with
      | @start _ _ c' _ _ _ _ hc =>
        obtain ⟨rfl, -⟩ := Prod.mk.inj (List.mem_singleton.1 hmem)
        -- The start is all that is done by its act.
        obtain rfl : m = [] := by
          cases m with
          | nil => rfl
          | cons d m => simp at hdeeds
        obtain hnone | hsome := hc
        · rw [hnone] at hk
          cases hk
        · obtain rfl : k = ⟨(e.after as).account.next⟩ := Option.some.inj (hk.symm.trans hsome)
          obtain ⟨y, hy⟩ := h.ascribes hbefore ⟨(e.after as).account.next⟩
          rw [List.append_nil]
          exact (hy.fresh le_rfl).2

/-- **The caller of the last run is owed an answer up to the settlement of that run.** -/
theorem Course.tale_eq_owed (h : e.Course D x as) {q : Nat} {before rest : List (Chain × Deed)}
    (hstart : e.saga x as = before ++ (c, .started q) :: rest)
    (honce : ∀ d ∈ rest, d.2.isStart = false) (hk : c.completion = some k) :
    e.tale k as = Deed.owed (.started q :: rest.map Prod.snd) := by
  obtain ⟨st, hshifts, -⟩ := h.shifts
  obtain ⟨y, hy⟩ := h.new.ascribes h.loyal k
  obtain ⟨l, l', hl, hbefore, hrest⟩ := List.filter_eq_append_iff.1 hstart
  obtain ⟨m, m', rfl, hm, hx, -⟩ := List.filter_eq_cons_iff.1 hrest
  have hxy : x = y := by
    refine (beq_iff_eq.1 hx).symm.trans (hy.deeds (c, .started q) ?_ hk)
    rw [hl]
    exact List.mem_append_right _ (List.mem_append_right _ List.mem_cons_self)
  -- Nothing done before the start has to do with the completion.
  have hfresh : ∀ d ∈ before, d.1.completion ≠ some k := by
    have hchronicle : e.chronicle as = (l ++ m) ++ (c, .started q) :: m' := by
      rw [hl, List.append_assoc]
    intro d hd
    refine h.new.fresh_of_started h.loyal hchronicle hk d ?_
    rw [← hbefore] at hd
    exact List.mem_append_left _ (List.mem_filter.1 hd).1
  have hnone : Deed.of (fun c => c.completion == some k) before = [] := by
    rw [Deed.of, List.filter_eq_nil_iff.2 fun d hd => by simpa using hfresh d hd, List.map_nil]
  have hfilter : ((e.chronicle as).filter fun d => d.1.completion == some k) =
      (e.saga x as).filter fun d => d.1.completion == some k := by
    rw [saga, Deed.about, List.filter_filter]
    refine List.filter_congr fun d hd => ?_
    by_cases howed : d.1.completion = some k
    · simp [howed, hxy, hy.deeds d hd howed]
    · simp [howed]
  obtain ⟨st₁, p₁, st₂, p₂, -, hshift, hafter⟩ := hshifts.split hstart
  obtain ⟨rfl, rfl⟩ := hshift.of_started
  have howed := ((Shifts.one hshift).trans hafter).owed rfl honce hk
  rw [tale, Deed.of, hfilter]
  show Deed.of (fun c => c.completion == some k) (e.saga x as) = _
  rw [hstart, Deed.of_append, hnone, List.nil_append]
  exact howed.1

/-! ## At rest -/

/-- Nothing moves any more by itself. -/
def IsAtRest (e : Engine) : Prop := ∀ t ∈ e.tasks, e.canMove t = false

theorem isAtRest_of_isEmpty (h : e.tasks.isEmpty = true) : e.IsAtRest := by
  intro t ht
  rw [List.isEmpty_iff.1 h] at ht
  cases ht

/-- No chain of the instance is there any more. -/
def IsThrough (e : Engine) (x : String) : Prop := ∀ c ∈ e.chains, c.inst ≠ x

/-- Nothing moves any more, all delays of the instance are over, and none of its steps is still
being executed. -/
structure IsDone (e : Engine) (x : String) : Prop where
  atRest : e.IsAtRest
  fired : ∀ r ∈ e.scheduler.continuations, r.chain.inst ≠ x
  returned : ∀ t ∈ e.tasks, ∀ o c stage, .driving o c stage ∈ t.frames → c.inst = x →
    stage.isInside = false

theorem isDone_of_isEmpty (htasks : e.tasks.isEmpty = true)
    (harmed : e.scheduler.continuations.isEmpty = true) : e.IsDone x := by
  refine ⟨isAtRest_of_isEmpty htasks, fun r hr => ?_, fun t ht => ?_⟩
  · rw [List.isEmpty_iff.1 harmed] at hr
    cases hr
  · rw [List.isEmpty_iff.1 htasks] at ht
    cases ht

/-- Where nothing moves, a chain that has not left its task is within a step. -/
theorem IsNew.isInside_of_frame (h : e.IsNew) (hrest : (e.after as).IsAtRest) {t : Task}
    (ht : t ∈ (e.after as).tasks) {o : Origin} {stage : Stage}
    (hft : .driving o c stage ∈ t.frames) : stage.isInside = true := by
  have hcalling := (((h.sound .any).after_any as).tasks t ht).calling
  have hparked : t.parked = true := by
    have hcan := hrest t ht
    simp only [canMove, Bool.or_eq_false_iff, Bool.not_eq_false'] at hcan
    exact hcan.1.1
  have hwaiting := h.isWaiting as ht hparked
  cases hframes : t.frames with
  | nil =>
    rw [hframes] at hft
    cases hft
  | cons f below =>
    rw [hframes] at hft hcalling
    rw [Task.isWaiting, hframes] at hwaiting
    rcases List.mem_cons.1 hft with rfl | hbelow
    · cases stage with
      | inside _ _ => rfl
      | _ => cases hwaiting
    · have hcall := hcalling _ hbelow
      cases stage with
      | calling _ _ => rfl
      | _ => cases hcall

/-- **Where nothing moves, a chain rests or is within a step.** -/
theorem IsNew.isInside_of_isAtRest (h : e.IsNew) (hrest : (e.after as).IsAtRest)
    (hc : c ∈ (e.after as).chains) :
    (∃ r ∈ (e.after as).scheduler.continuations, r.chain = c) ∨
      ∃ t ∈ (e.after as).tasks, ∃ o stage, .driving o c stage ∈ t.frames ∧
        stage.isInside = true := by
  rcases List.mem_append.1 hc with hc | hc
  · obtain ⟨f, hf, hchain⟩ := List.mem_filterMap.1 hc
    obtain ⟨t, ht, hft⟩ := List.mem_flatMap.1 hf
    cases f with
    | driving o c' stage =>
      cases hchain
      exact .inr ⟨t, ht, o, stage, hft, h.isInside_of_frame hrest ht hft⟩
    | _ => cases hchain
  · obtain ⟨r, hr, rfl⟩ := List.mem_map.1 hc
    exact .inl ⟨r, hr, rfl⟩

theorem IsNew.isThrough_of_isDone (h : e.IsNew) (hdone : (e.after as).IsDone x) :
    (e.after as).IsThrough x := by
  intro c hc hx
  obtain ⟨r, hr, rfl⟩ | ⟨t, ht, o, stage, hft, hinside⟩ :=
    h.isInside_of_isAtRest hdone.atRest hc
  · exact hdone.fired r hr hx
  · rw [hdone.returned t ht o c stage hft hx] at hinside
    cases hinside

/-- A completion is not underway any more once its instance is through. -/
theorem Course.isUnderway_of_isThrough (h : e.Course D x as) {d : Deed}
    (hmem : (c, d) ∈ e.saga x as) (hk : c.completion = some k)
    (hthrough : (e.after as).IsThrough x) : (e.after as).isUnderway k = false := by
  obtain ⟨y, hy⟩ := h.new.ascribes h.loyal k
  obtain ⟨hchronicle, hx⟩ := List.mem_filter.1 hmem
  have hxy : x = y := (beq_iff_eq.1 hx).symm.trans (hy.deeds _ hchronicle hk)
  refine isUnderway_eq_false_iff.2 (Multiset.eq_zero_of_forall_notMem fun s hs => ?_)
  obtain ⟨hstrand, hparty⟩ := Multiset.mem_filter.1 hs
  have hchain : s.chain ∈ (e.after as).account.pairs.map Prod.fst :=
    Multiset.mem_map_of_mem Prod.fst (Multiset.mem_map_of_mem Strand.pair hstrand)
  rw [map_fst_pairs] at hchain
  exact hthrough _ hchain ((hy.strands s hstrand hparty).trans hxy.symm)

/-- **Where nothing moves, who waited for a chain that is no more has been told**, or was cut
off. -/
theorem IsNew.answers_of_isAtRest (h : e.IsNew) (hrest : (e.after as).IsAtRest)
    (hmade : e.tale k as ≠ []) (hpanic : .panicked ∉ e.tale k as)
    (hover : (e.after as).isUnderway k = false) :
    ∃ s, Deed.Verdict (e.tale k as) s ∧
      (e.answers k as = [none] ∨ e.answers k as = [some (.settled s)]) := by
  have hsound : (e.after as).Sound .any := (h.sound .any).after_any as
  have hparties := isUnderway_eq_false_iff.1 hover
  cases h.promise k as with
  | unmade hT => exact absurd hT hmade
  | owed hp =>
    rw [hparties] at hp
    cases congrArg Multiset.card hp
  | closing hp =>
    rw [hparties] at hp
    cases congrArg Multiset.card hp
  | @decided s _ hd =>
    refine ⟨s, hd.verdict, ?_⟩
    have hnone : (e.after as).account.waiting.count k = 0 := by
      by_contra hpos
      obtain ⟨t, ht, r, below, hframes⟩ := hsound.exists_receiving (Nat.pos_of_ne_zero hpos)
      have howed : (e.after as).isOwed k = false := (Bool.or_eq_false_iff.1 hover).1
      obtain ⟨-, -, -, hcan, -⟩ :=
        hsound.isTelling_of_decided ht hframes howed (hd.waiting (Nat.pos_of_ne_zero hpos))
      rw [hrest t ht] at hcan
      cases hcan
    have hone := hd.one
    rw [hnone, Nat.add_zero] at hone
    obtain ⟨reply, hreply⟩ := List.length_eq_one_iff.1 hone
    rw [hreply]
    obtain rfl | rfl := hd.replies reply (by rw [hreply]; exact List.mem_singleton_self _)
    · exact .inl rfl
    · exact .inr rfl
  | panicked hmem => exact absurd hmem hpanic

/-! ## A single run -/

section

variable {p : Nat}
  (hsingle : ∃ rest, e.saga x as = (c, .started p) :: rest ∧ ∀ s ∈ rest, s.2.isStart = false)
include hsingle

/-- The only start of a run is its first deed. -/
theorem start_of_single {before : List Act} (hle : before ++ [a] <+: as) {s : Chain × Deed}
    (hs : s ∈ Deed.about x ((e.after before).deeds a)) (hstart : s.2.isStart = true) :
    e.saga x before = [] ∧ s = (c, .started p) := by
  obtain ⟨rest, hsaga, hrest⟩ := hsingle
  obtain ⟨l, hl⟩ := e.saga_mono x hle
  rw [saga_concat, hsaga, List.append_assoc] at hl
  cases hnil : e.saga x before with
  | nil =>
    rw [hnil, List.nil_append] at hl
    have hmem : s ∈ (c, Deed.started p) :: rest := by
      rw [← hl]
      exact List.mem_append_left _ hs
    rcases List.mem_cons.1 hmem with rfl | hmem
    · exact ⟨rfl, rfl⟩
    · rw [hrest s hmem] at hstart
      cases hstart
  | cons s₀ l₀ =>
    rw [hnil] at hl
    obtain ⟨-, hl⟩ := List.cons.inj hl
    have hmem : s ∈ rest := by
      rw [← hl]
      exact List.mem_append_right _ (List.mem_append_left _ hs)
    rw [hrest s hmem] at hstart
    cases hstart

/-- What is done in a run tells the position. -/
theorem Course.position_of_single (h : e.Course D x as) :
    (e.after as).position x = Deed.position p (e.story x as) := by
  obtain ⟨st, hstory⟩ := h.story
  obtain ⟨rest, hsaga, -⟩ := hsingle
  have hcons : e.story x as = [] ++ .started p :: rest.map Prod.snd := by
    rw [← map_snd_saga, hsaga]
    rfl
  obtain ⟨st₁, p₁, hnil, hoccurs⟩ := hstory.occurs hcons
  have hstart : p₁ = p := by
    cases hoccurs with
    | start => rfl
    | go hgo => cases hgo
    | ended hd => cases hd
  rw [hstory.position_eq, show e.position x = p₁ from hnil.position_eq.symm, hstart]

/-- Once nothing moves any more, the caller of a run has been told the verdict on what was done. -/
theorem Course.told (h : e.Course D x as) (hdone : (e.after as).IsDone x)
    (hk : c.completion = some k) (hpanic : .panicked ∉ e.story x as)
    (hcut : none ∉ e.answers k as) :
    ∃ s, e.answers k as = [some (.settled s)] ∧ Deed.Verdict (Deed.owed (e.story x as)) s := by
  obtain ⟨rest, hsaga, hrest⟩ := hsingle
  have hmem : (c, Deed.started p) ∈ e.saga x as := by
    rw [hsaga]
    exact List.mem_cons_self
  have htale : e.tale k as = Deed.owed (e.story x as) := by
    rw [h.tale_eq_owed (hsaga.trans (List.nil_append _).symm) hrest hk, ← map_snd_saga, hsaga]
    rfl
  have hover := h.isUnderway_of_isThrough hmem hk (h.new.isThrough_of_isDone hdone)
  obtain ⟨s, hverdict, hanswers⟩ := h.new.answers_of_isAtRest hdone.atRest
    (by rw [htale, ← map_snd_saga, hsaga]; exact List.cons_ne_nil _ _)
    (by rw [htale]; exact fun hin => hpanic ((Deed.owed_prefix _).subset hin)) hover
  rw [htale] at hverdict
  refine ⟨s, ?_, hverdict⟩
  obtain hnone | hsome := hanswers
  · rw [hnone] at hcut
    exact absurd (List.mem_singleton_self _) hcut
  · exact hsome

end

end Engine

end DurableFlow
