import DurableFlow.Proofs.Cancellation.CancelledDelays

/-!
# Lives of chains

The life of a chain is all that is done for it: in the task in which it starts, while it rests, and
in the tasks that go on with it after its delays. A chain is told from others by its number, which is
drawn when it starts (`Chain.number`).

Main statements: what has been done under a number is what one chain recalls, or recalled up to its
end (`Engine.IsNew.lives`), and it began with the start of that chain (`Engine.IsNew.lived`).
Chains belong to the family of the member that takes them on (`Engine.IsNew.own_of_strands`). What
chains do not lose by anything that they do holds of all of them, once it holds when they start
(`Account.Changes.keeps`).
-/

namespace DurableFlow

theorem Goes.number_eq {p p' : Nat} {c c' : Chain} {φ φ' : Phase} {ds : List Deed}
    (h : Goes p c φ ds p' c' φ') : c'.number = c.number := by
  cases h <;> rfl

/-- What is done under a number, with the chain as it was then. -/
def Deed.under (k : Nat) (l : List (Chain × Deed)) : List (Chain × Deed) :=
  l.filter fun d => d.1.number == k

/-- The chains of a number, with their phases. -/
def pairsUnder (k : Nat) (M : Multiset (Chain × Phase)) : Multiset (Chain × Phase) :=
  M.filter fun s => s.1.number = k

section

variable {k : Nat} {c : Chain} {φ : Phase} {R : Multiset (Chain × Phase)}
  {l l' : List (Chain × Deed)}

theorem pairsUnder_cons_of_eq (h : c.number = k) (φ : Phase) (R : Multiset (Chain × Phase)) :
    pairsUnder k ((c, φ) ::ₘ R) = (c, φ) ::ₘ pairsUnder k R := by
  have hk : (fun s : Chain × Phase => s.1.number = k) (c, φ) := h
  exact Multiset.filter_cons_of_pos R hk

theorem pairsUnder_cons_of_ne (h : c.number ≠ k) (φ : Phase) (R : Multiset (Chain × Phase)) :
    pairsUnder k ((c, φ) ::ₘ R) = pairsUnder k R := by
  have hk : ¬ (fun s : Chain × Phase => s.1.number = k) (c, φ) := h
  exact Multiset.filter_cons_of_neg R hk

theorem Deed.under_append (k : Nat) (l l' : List (Chain × Deed)) :
    under k (l ++ l') = under k l ++ under k l' := by
  simp only [under, List.filter_append]

theorem Deed.under_map_of_eq (h : c.number = k) (ds : List Deed) :
    under k (ds.map (c, ·)) = ds.map (c, ·) := by
  refine List.filter_eq_self.2 fun d hd => ?_
  obtain ⟨_, -, rfl⟩ := List.mem_map.1 hd
  exact beq_iff_eq.2 h

theorem Deed.under_map_of_ne (h : c.number ≠ k) (ds : List Deed) :
    under k (ds.map (c, ·)) = [] := by
  refine List.filter_eq_nil_iff.2 fun d hd => ?_
  obtain ⟨_, -, rfl⟩ := List.mem_map.1 hd
  simpa using h

theorem Deed.mem_under {d : Chain × Deed} : d ∈ under k l ↔ d ∈ l ∧ d.1.number = k := by
  simp [under]

end

/-- What a chain recalls begins with its only start. -/
theorem Recalls.first {d : Definition} {p₀ p i : Nat} {a c : Chain} {φ : Phase}
    {L : List (Chain × Deed)} (h : Recalls d p₀ (L.map Prod.snd) c φ p)
    (ha : (a, .started i) ∈ L) :
    p₀ = i ∧ ∃ U, L = (a, .started i) :: U ∧ ∀ c' j, (c', .started j) ∉ U := by
  obtain ⟨U, hU, hnone⟩ := h.eq_cons
  obtain ⟨⟨c₀, d₀⟩, L, rfl, hd₀, rfl⟩ := List.map_eq_cons_iff.1 hU
  have hd₀ : d₀ = .started p₀ := hd₀
  subst hd₀
  have hnone : ∀ c' j, (c', .started j) ∉ L := fun c' j hj => hnone j (List.mem_map_of_mem hj)
  rcases List.mem_cons.1 ha with heq | hL
  · cases heq
    exact ⟨rfl, L, rfl, hnone⟩
  · exact absurd hL (hnone a i)

/-- What has been done under a number: nothing, as much as its chain recalls, or what that recalled
and how it ended. -/
inductive Life (k : Nat) (M : Multiset (Chain × Phase)) : List (Chain × Deed) → Prop
  | unborn (hM : pairsUnder k M = 0) : Life k M []
  | going {c φ L p₀ p} (hM : pairsUnder k M = {(c, φ)})
      (hsame : ∀ x ∈ L, x.1.definition = c.definition)
      (h : Recalls c.definition p₀ (L.map Prod.snd) c φ p) : Life k M L
  | closed {c φ L d p₀ p} (hM : pairsUnder k M = 0)
      (hsame : ∀ x ∈ L, x.1.definition = c.definition)
      (h : Recalls c.definition p₀ (L.map Prod.snd) c φ p) (hd : Ends φ d) :
      Life k M (L ++ [(c, d)])

namespace Life

variable {S : Standard} {k : Nat} {M N : Multiset (Chain × Phase)} {L ds : List (Chain × Deed)}
  {p q : String → Nat} {c : Chain} {φ : Phase}

/-- A life depends on the chain of its number only. -/
theorem congr (h : Life k M L) (hsame : pairsUnder k N = pairsUnder k M) : Life k N L := by
  cases h with
  | unborn hnone => exact .unborn (hsame.trans hnone)
  | going hone hL hrecalls => exact .going (hsame.trans hone) hL hrecalls
  | closed hnone hL hrecalls hends => exact .closed (hsame.trans hnone) hL hrecalls hends

/-- The chain that does something under a number is the one that recalls what was done. -/
theorem recalls {R : Multiset (Chain × Phase)} (h : Life k M L) (hM : M = (c, φ) ::ₘ R)
    (hk : c.number = k) :
    pairsUnder k R = 0 ∧ (∀ x ∈ L, x.1.definition = c.definition) ∧
      ∃ p₀ p, Recalls c.definition p₀ (L.map Prod.snd) c φ p := by
  have hne : pairsUnder k M ≠ 0 := by
    rw [hM, pairsUnder_cons_of_eq hk]
    exact Multiset.cons_ne_zero
  cases h with
  | unborn hnone => exact absurd hnone hne
  | closed hnone => exact absurd hnone hne
  | going hone hsame hrecalls =>
    rw [hM, pairsUnder_cons_of_eq hk] at hone
    obtain ⟨rfl, rfl⟩ := Prod.mk.inj (Multiset.mem_singleton.1 (hone ▸ Multiset.mem_cons_self _ _))
    exact ⟨(Multiset.cons_inj_right _).1 hone, hsame, _, _, hrecalls⟩

/-- **A life goes on by what is done under its number.** -/
theorem changes (h : Life k M L) (hchanges : Account.Changes S p M ds q N) :
    Life k N (L ++ Deed.under k ds) := by
  cases hchanges with
  | none =>
    rw [Deed.under, List.filter_nil, List.append_nil]
    exact h
  | @go c φ ds p' c' φ' R _ hM hd hgo hN =>
    by_cases hk : c.number = k
    · obtain ⟨hR, hsame, p₀, p₁, hrecalls⟩ := h.recalls hM hk
      obtain ⟨q', hgo'⟩ := hgo.anywhere p₁
      have hds : (ds.map (c, ·)).map Prod.snd = ds := (List.map_map ..).trans (List.map_id ds)
      rw [Deed.under_map_of_eq hk]
      have hlater : Recalls c'.definition p₀ ((L ++ ds.map (c, ·)).map Prod.snd) c' φ' q' := by
        rw [hgo.definition_eq, List.map_append, hds]
        exact hrecalls.goes rfl hgo'
      refine .going ?_ (fun x hx => ?_) hlater
      · rw [hN, pairsUnder_cons_of_eq (hgo.number_eq.trans hk), hR, Multiset.cons_zero]
      · rw [hgo.definition_eq]
        rcases List.mem_append.1 hx with hx | hx
        · exact hsame x hx
        · obtain ⟨_, -, rfl⟩ := List.mem_map.1 hx
          rfl
    · have hsame : pairsUnder k N = pairsUnder k M := by
        rw [hM, hN, pairsUnder_cons_of_ne hk, pairsUnder_cons_of_ne (hgo.number_eq ▸ hk)]
      rw [Deed.under_map_of_ne hk, List.append_nil]
      exact h.congr hsame
  | @ended c φ d R hM hends =>
    have hsingle : [(c, d)] = [d].map (c, ·) := rfl
    by_cases hk : c.number = k
    · obtain ⟨hR, hL, p₀, p₁, hrecalls⟩ := h.recalls hM hk
      rw [hsingle, Deed.under_map_of_eq hk]
      exact .closed hR hL hrecalls hends
    · have hsame : pairsUnder k N = pairsUnder k M := by rw [hM, pairsUnder_cons_of_ne hk]
      rw [hsingle, Deed.under_map_of_ne hk, List.append_nil]
      exact h.congr hsame

/-- A life begins with the only start in it. -/
theorem first (h : Life k M L) {a : Chain} {i : Nat} (ha : (a, .started i) ∈ L) :
    ∃ U, L = (a, .started i) :: U ∧ ∀ c' j, (c', .started j) ∉ U := by
  cases h with
  | unborn => cases ha
  | going _ _ hrecalls => exact (hrecalls.first ha).2
  | @closed c φ L d p₀ p _ _ hrecalls hends =>
    have hlast : ∀ c' j, (c', .started j) ∉ [(c, d)] := by
      intro c' j hmem
      cases List.mem_singleton.1 hmem
      cases hends
    have ha : (a, .started i) ∈ L := (List.mem_append.1 ha).resolve_right (hlast a i)
    obtain ⟨-, U, rfl, hnone⟩ := hrecalls.first ha
    refine ⟨U ++ [(c, d)], rfl, fun c' j hmem => ?_⟩
    exact (List.mem_append.1 hmem).elim (hnone c' j) (hlast c' j)

end Life

/-! ## Accounts and lives -/

namespace Account

variable {S : Standard} {A B : Account} {l ds : List (Chain × Deed)}
  {ts : List (CompletionId × Option Reply)}

/-- Numbers are drawn once, and what has been done under each of them is a life. -/
structure Lives (A : Account) (l : List (Chain × Deed)) : Prop where
  pairs : ∀ s ∈ A.pairs, s.1.number < A.next
  deeds : ∀ d ∈ l, d.1.number < A.next
  life : ∀ k, Life k A.pairs (Deed.under k l)

/-- Nothing that a chain does makes it lose the property. -/
def Lasting (S : Standard) (P : Chain → Phase → Prop) : Prop :=
  ∀ ⦃p : Nat⦄ ⦃c : Chain⦄ ⦃φ : Phase⦄ ⦃ds : List Deed⦄ ⦃p' : Nat⦄ ⦃c' : Chain⦄ ⦃φ' : Phase⦄,
    S.definition c.definition → P c φ → Goes p c φ ds p' c' φ' → P c' φ'

/-- **A lasting property that all chains have stays with them**, and those that do something have it
then. -/
theorem Changes.keeps {p q : String → Nat} {M N : Multiset (Chain × Phase)}
    {P : Chain → Phase → Prop} (h : Changes S p M ds q N) (hP : Lasting S P)
    (hM : ∀ s ∈ M, P s.1 s.2) :
    (∀ s ∈ N, P s.1 s.2) ∧ ∀ x ∈ ds, ∃ i φ, P x.1 φ ∧ Occurs i (some (x.1, φ)) x.2 := by
  cases h with
  | none => exact ⟨hM, by simp⟩
  | @go c φ ds p' c' φ' R _ hcons hd hgo hN =>
    rw [hcons] at hM
    have hc : P c φ := hM (c, φ) (Multiset.mem_cons_self _ _)
    refine ⟨fun s hs => ?_, fun x hx => ?_⟩
    · rw [hN] at hs
      rcases Multiset.mem_cons.1 hs with rfl | hs
      · exact hP hd hc hgo
      · exact hM s (Multiset.mem_cons_of_mem hs)
    · obtain ⟨d, hmem, rfl⟩ := List.mem_map.1 hx
      obtain rfl | ⟨d', rfl⟩ := hgo.deeds_cases
      · cases hmem
      · rw [List.mem_singleton.1 hmem]
        exact ⟨_, φ, hc, .go hgo⟩
  | @ended c φ d R hcons hends =>
    rw [hcons] at hM
    refine ⟨fun s hs => hM s (Multiset.mem_cons_of_mem hs), fun x hx => ?_⟩
    rw [List.mem_singleton.1 hx]
    exact ⟨0, φ, hM (c, φ) (Multiset.mem_cons_self _ _), .ended hends⟩

/-- No number is drawn by what chains do. -/
theorem Changes.numbers {p q : String → Nat} {M N : Multiset (Chain × Phase)} {n : Nat}
    (h : Changes S p M ds q N) (hM : ∀ s ∈ M, s.1.number < n) :
    (∀ s ∈ N, s.1.number < n) ∧ ∀ d ∈ ds, d.1.number < n := by
  have hlasting : Lasting S fun c _ => c.number < n :=
    fun _ _ _ _ _ _ _ _ hlt hgo => hgo.number_eq.trans_lt hlt
  obtain ⟨hN, hds⟩ := h.keeps hlasting hM
  refine ⟨hN, fun d hd => ?_⟩
  obtain ⟨-, -, hlt, -⟩ := hds d hd
  exact hlt

namespace Lives

theorem step (h : A.Lives l) (hstep : Step S A ds ts B) : B.Lives (l ++ ds) := by
  obtain ⟨hpairs, hdeeds⟩ := hstep.changes.numbers h.pairs
  have hle := hstep.next_le
  refine ⟨fun s hs => Nat.lt_of_lt_of_le (hpairs s hs) hle, fun d hd => ?_, fun k => ?_⟩
  · rcases List.mem_append.1 hd with hd | hd
    · exact Nat.lt_of_lt_of_le (h.deeds d hd) hle
    · exact Nat.lt_of_lt_of_le (hdeeds d hd) hle
  · rw [Deed.under_append]
    exact (h.life k).changes hstep.changes

theorem steps (h : A.Lives l) (hsteps : Steps S A ds ts B) : B.Lives (l ++ ds) := by
  induction hsteps with
  | refl => rwa [List.append_nil]
  | tail _ hstep ih =>
    rw [← List.append_assoc]
    exact ih.step hstep

/-- A chain joins the others under a number that is drawn for it. -/
theorem join (h : A.Lives l) {c : Chain} {i : Nat} (hn : c.number = A.next)
    (hpairs : B.pairs = (c, .entering i) ::ₘ A.pairs) (hnext : B.next = A.next + 1) :
    B.Lives (l ++ [(c, .started i)]) := by
  have hsingle : [(c, Deed.started i)] = [.started i].map (c, ·) := rfl
  have hlt : c.number < B.next := hn ▸ hnext ▸ Nat.lt_succ_self _
  have hle : A.next ≤ B.next := hnext ▸ Nat.le_succ _
  refine ⟨fun s hs => ?_, fun d hd => ?_, fun k => ?_⟩
  · rw [hpairs] at hs
    rcases Multiset.mem_cons.1 hs with rfl | hs
    · exact hlt
    · exact Nat.lt_of_lt_of_le (h.pairs s hs) hle
  · rcases List.mem_append.1 hd with hd | hd
    · exact Nat.lt_of_lt_of_le (h.deeds d hd) hle
    · rw [List.mem_singleton.1 hd]
      exact hlt
  · rw [hpairs, Deed.under_append, hsingle]
    by_cases hk : c.number = k
    · -- Nothing has been done under a number that has not been drawn.
      have hnone : pairsUnder k A.pairs = 0 := by
        refine Multiset.filter_eq_nil.2 fun s hs heq => ?_
        exact absurd (h.pairs s hs) (by rw [heq, ← hk, hn]; exact Nat.lt_irrefl _)
      have hnothing : Deed.under k l = [] := by
        refine List.filter_eq_nil_iff.2 fun d hd heq => ?_
        have heq : d.1.number = k := beq_iff_eq.1 heq
        exact absurd (h.deeds d hd) (by rw [heq, ← hk, hn]; exact Nat.lt_irrefl _)
      rw [Deed.under_map_of_eq hk, hnothing, List.nil_append]
      have hrecalls : Recalls c.definition i [.started i] c (.entering i) i :=
        ⟨[.started i], i, [], rfl, .start, .entering⟩
      refine .going ?_ (fun x hx => ?_) hrecalls
      · rw [pairsUnder_cons_of_eq hk, hnone, Multiset.cons_zero]
      · rw [List.mem_singleton.1 hx]
    · rw [Deed.under_map_of_ne hk, List.append_nil]
      have hsame := pairsUnder_cons_of_ne hk (.entering i) A.pairs
      exact (h.life k).congr hsame

theorem starts (h : A.Lives l) (hstarts : Starts S A ds B) : B.Lives (l ++ ds) := by
  cases hstarts with
  | start hq hd hi hc hn => exact h.join hn (Multiset.map_cons ..) rfl

/-- Two starts under one number are the same. -/
theorem started_inj (h : A.Lives l) {c c' : Chain} {i j : Nat} (hc : (c, .started i) ∈ l)
    (hc' : (c', .started j) ∈ l) (hk : c'.number = c.number) : c' = c ∧ j = i := by
  obtain ⟨U, hU, hnone⟩ := (h.life c.number).first (Deed.mem_under.2 ⟨hc, rfl⟩)
  have hmem : (c', .started j) ∈ Deed.under c.number l := Deed.mem_under.2 ⟨hc', hk⟩
  rw [hU] at hmem
  rcases List.mem_cons.1 hmem with heq | hmem
  · cases heq
    exact ⟨rfl, rfl⟩
  · exact absurd hmem (hnone c' j)

end Lives

/-- A chain that starts draws its number. -/
theorem Passes.number_of_started {c : Chain} {i : Nat} (h : Passes S A ds ts B)
    (hd : (c, .started i) ∈ ds) : c.number = A.next := by
  cases h with
  | steps h => cases h.not_started _ hd
  | start h =>
    cases h with
    | start hq hd' hi hc hn =>
      cases List.mem_singleton.1 hd
      exact hn

end Account

namespace Engine

variable {S : Standard} {e : Engine} {a : Act} {as : List Act} {own : Nat → Bool} {c : Chain}
  {p : Nat}

/-- **What has been done under each number is the life of a chain.** -/
theorem IsNew.lives (h : e.IsNew) (as : List Act) :
    (e.after as).account.Lives (e.chronicle as) := by
  induction as using List.reverseRecOn with
  | nil =>
    have hnone : (e.after []).account.pairs = 0 := h.pairs_eq
    refine ⟨fun s hs => ?_, fun d hd => (by cases hd), fun k => .unborn ?_⟩
    · rw [hnone] at hs
      exact absurd hs (Multiset.notMem_zero s)
    · rw [hnone]
      rfl
  | append_singleton as a ih =>
    obtain ⟨-, hpasses⟩ := ((h.sound .any).after_any as).act a.meets_any
    rw [chronicle_concat, after_concat]
    cases hpasses with
    | start hstart _ => exact ih.starts hstart
    | steps hsteps => exact ih.steps hsteps

/-- What is done under a number in the course of a history. -/
def life (e : Engine) (k : Nat) (as : List Act) : List Deed :=
  Deed.of (fun c => c.number == k) (e.chronicle as)

theorem life_eq (e : Engine) (k : Nat) (as : List Act) :
    e.life k as = (Deed.under k (e.chronicle as)).map Prod.snd := rfl

theorem mem_life {k : Nat} {d : Deed} :
    d ∈ e.life k as ↔ ∃ c, (c, d) ∈ e.chronicle as ∧ c.number = k := by
  simp [life, Deed.mem_of]

/-- How the chain of a number has lived that is one of a definition and started at a position: it goes
on and recalls what it has done, or it is over. -/
inductive Lived (e : Engine) (as : List Act) (d : Definition) (p k : Nat) : Prop
  | going {c φ q} (hc : (c, φ) ∈ (e.after as).account.pairs) (hk : c.number = k)
      (h : Recalls d p (e.life k as) c φ q)
  | closed {c φ q T x} (hnone : ∀ s ∈ (e.after as).account.pairs, s.1.number ≠ k)
      (hT : e.life k as = T ++ [x]) (h : Recalls d p T c φ q) (hx : Ends φ x)

/-- **All that has been done under the number of a chain since it started was done by it.** -/
theorem IsNew.lived (h : e.IsNew) (hstarted : (c, .started p) ∈ e.chronicle as) :
    e.Lived as c.definition p c.number ∧
      ∀ x ∈ e.chronicle as, x.1.number = c.number → x.1.definition = c.definition := by
  have hmem : (c, .started p) ∈ Deed.under c.number (e.chronicle as) :=
    Deed.mem_under.2 ⟨hstarted, rfl⟩
  have hlives := (h.lives as).life c.number
  have hlife := e.life_eq c.number as
  have hunder : ∀ x ∈ e.chronicle as, x.1.number = c.number →
      x ∈ Deed.under c.number (e.chronicle as) := fun x hx hk => Deed.mem_under.2 ⟨hx, hk⟩
  generalize Deed.under c.number (e.chronicle as) = L at hmem hlives hlife hunder
  cases hlives with
  | unborn => cases hmem
  | @going c' φ L p₀ q hone hsame hrecalls =>
    have hin : (c', φ) ∈ pairsUnder c.number (e.after as).account.pairs :=
      hone ▸ Multiset.mem_singleton_self _
    obtain ⟨hpair, hk⟩ := Multiset.mem_filter.1 hin
    have hdefinition : c.definition = c'.definition := hsame _ hmem
    obtain ⟨rfl, -⟩ := hrecalls.first hmem
    rw [← hlife, ← hdefinition] at hrecalls
    refine ⟨.going hpair hk hrecalls, fun x hx hx' => ?_⟩
    exact (hsame x (hunder x hx hx')).trans hdefinition.symm
  | @closed c' φ L d p₀ q hnone hsame hrecalls hends =>
    have hmem' : (c, .started p) ∈ L := by
      rcases List.mem_append.1 hmem with hmem | hmem
      · exact hmem
      · cases List.mem_singleton.1 hmem
        cases hends
    have hdefinition : c.definition = c'.definition := hsame _ hmem'
    obtain ⟨rfl, -⟩ := hrecalls.first hmem'
    rw [← hdefinition] at hrecalls
    refine ⟨.closed (fun s hs hk => ?_) (hlife.trans (List.map_append ..)) hrecalls hends,
      fun x hx hx' => ?_⟩
    · exact Multiset.filter_eq_nil.1 hnone s hs hk
    · rcases List.mem_append.1 (hunder x hx hx') with hin | hin
      · exact (hsame x hin).trans hdefinition.symm
      · rw [List.mem_singleton.1 hin]
        exact hdefinition.symm

/-- A life begins with the start of its chain, and there is no other one in it. -/
theorem IsNew.life_eq_cons (h : e.IsNew) (hstarted : (c, .started p) ∈ e.chronicle as) :
    ∃ U, e.life c.number as = .started p :: U ∧ ∀ q, .started q ∉ U := by
  obtain ⟨U, hU, hnone⟩ := ((h.lives as).life c.number).first (Deed.mem_under.2 ⟨hstarted, rfl⟩)
  refine ⟨U.map Prod.snd, ?_, fun q hq => ?_⟩
  · rw [life_eq, hU]
    rfl
  · obtain ⟨⟨c', d⟩, hmem, rfl⟩ := List.mem_map.1 hq
    exact hnone c' q hmem

/-- **Nothing is done under the number of a chain before it starts.** -/
theorem IsNew.life_of_split (h : e.IsNew) {before rest : List (Chain × Deed)}
    (hsplit : e.chronicle as = before ++ (c, .started p) :: rest) :
    e.life c.number as = .started p :: Deed.of (fun c' => c'.number == c.number) rest := by
  have hstarted : (c, .started p) ∈ e.chronicle as := by
    rw [hsplit]
    exact List.mem_append_right _ List.mem_cons_self
  obtain ⟨U, hU, hnone⟩ := h.life_eq_cons hstarted
  have hlife : e.life c.number as = Deed.of (fun c' => c'.number == c.number) before ++
      .started p :: Deed.of (fun c' => c'.number == c.number) rest := by
    rw [life, hsplit, Deed.of_append]
    simp [Deed.of]
  cases hof : Deed.of (fun c' => c'.number == c.number) before with
  | nil => rw [hlife, hof, List.nil_append]
  | cons d ds =>
    rw [hlife, hof] at hU
    have htail : ds ++ .started p :: Deed.of (fun c' => c'.number == c.number) rest = U :=
      (List.cons.inj hU).2
    exact absurd (htail ▸ List.mem_append_right _ List.mem_cons_self) (hnone p)

/-! ## Chains of a family -/

/-- The chains of the members of a family belong to the family. -/
theorem IsNew.own_of_strands (h : e.IsNew) (hown : e.IsHereditary own as) :
    ∀ m ∈ (e.after as).members, own m.number = true → ∀ s ∈ m.strands,
      own s.chain.number = true := by
  induction as using List.reverseRecOn with
  | nil => exact fun m hm => absurd hm (h.not_mem_members m)
  | append_singleton as a ih =>
    have hsound : (e.after as).Sound .any := (h.sound .any).after_any as
    obtain ⟨-, hpasses⟩ := hsound.act a.meets_any
    have hinherits := hown as a [] rfl
    rw [after_concat]
    refine hsound.hands_on ((h.sound .any).isMarked_after h.isMarked as) hinherits
      (ih hown.left) ?_ (fun token f ha _ s hs => ?_) fun x n _ hx s hs => ?_
    · rintro t rested left rfl ht htown hyields
      obtain ⟨hleft, hrested⟩ := hyields.turns.strands (ih hown.left _ ht htown) (fun s hs => hs)
        (fun hs hgo _ _ => hgo.number_eq ▸ hs) fun r c i hstarted _ => by
          have hnumber : c.number = (e.after as).next := hpasses.number_of_started hstarted
          exact (congrArg own hnumber).trans
            ((hinherits.drawn t.number rfl (next_lt_of_started hstarted)).trans htown)
      refine ⟨?_, fun x hx s hs => ?_⟩
      · rintro t' rfl
        exact hleft
      · rw [List.mem_singleton.1 hs]
        exact hrested x hx
    · cases a with
      | run => cases ha; cases hs
      | resume => cases ha; cases hs
      | _ => cases ha
    · rw [List.mem_singleton.1 hs]
      exact hx x.strand (List.mem_singleton_self _)

/-- A chain that is there is taken on by a member, or rests. -/
theorem exists_member {s : Chain × Phase} (hs : s ∈ e.account.pairs) :
    ∃ m ∈ e.members, ∃ s' ∈ m.strands, s'.pair = s := by
  obtain ⟨s', hs', rfl⟩ := Multiset.mem_map.1 hs
  rw [strands_eq_bind] at hs'
  obtain ⟨m, hm, hs'⟩ := Multiset.mem_bind.1 hs'
  exact ⟨m, hm, s', hs', rfl⟩

/-- **Once no member of a family is left, its chains are over.** -/
theorem IsNew.number_ne_of_gone (h : e.IsNew) (hown : e.IsHereditary own as)
    (hgone : ∀ m ∈ (e.after as).members, own m.number = false) {k : Nat} (hk : own k = true) :
    ∀ s ∈ (e.after as).account.pairs, s.1.number ≠ k := by
  rintro s hs rfl
  obtain ⟨m, hm, s', hs', rfl⟩ := exists_member hs
  have hnot := h.own_of_strands hown.not m hm (by rw [hgone m hm]; rfl) s' hs'
  have hk : own s'.chain.number = true := hk
  rw [hk] at hnot
  cases hnot

end Engine

end DurableFlow
