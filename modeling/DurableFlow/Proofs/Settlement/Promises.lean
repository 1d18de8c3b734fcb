import DurableFlow.Proofs.Histories.Stories
import DurableFlow.Proofs.Settlement.Verdicts

/-!
# Promises of an answer

A promise is what becomes of a completion: it is made when a run starts whose caller waits, owed by
one chain at a time, wherever the chain goes, and then decided once, by a settlement, by the fault
that stops the chain, or because the chain is no more. `Promise` says which of these it is, and what
the caller has been told; at any time, at most one strand has to do with it (`Promise.of_party`).
-/

namespace DurableFlow

/-- Whether a strand owes a completion, or goes on within the call that waits for it. -/
def Strand.IsParty (k : CompletionId) (s : Strand) : Prop :=
  s.chain.completion = some k ∨ s.origin.receiver? = some k

instance (k : CompletionId) : DecidablePred (Strand.IsParty k) := fun _ =>
  inferInstanceAs (Decidable (_ ∨ _))

/-- Only what is left to do before a chain stops is still done. -/
def Phase.IsOver : Phase → Prop
  | .acting plan => plan.turn.next? = none
  | .halting _ => True
  | _ => False

theorem Goes.isOver {p p' : Nat} {c c' : Chain} {φ φ' : Phase} {ds : List Deed}
    (h : Goes p c φ ds p' c' φ') (hφ : φ.IsOver) : φ'.IsOver := by
  cases h with
  | save => exact hφ
  | publish => exact hφ
  | settle => exact hφ
  | unsave => trivial
  | refuse => trivial
  | unschedule => trivial
  | arrive => cases hφ
  | suspend => cases hφ
  | _ => exact hφ.elim

/-- What a chain can do does not depend on the position. -/
theorem Goes.anywhere {p p' : Nat} {c c' : Chain} {φ φ' : Phase} {ds : List Deed}
    (h : Goes p c φ ds p' c' φ') (q : Nat) : ∃ q', Goes q c φ ds q' c' φ' := by
  cases h with
  | execute hi => exact ⟨q, .execute hi⟩
  | pass hi => exact ⟨q, .pass hi⟩
  | withdraw => exact ⟨q, .withdraw⟩
  | abort => exact ⟨q, .abort⟩
  | heed hr hplan => exact ⟨q, .heed hr hplan⟩
  | misjump hr hplan => exact ⟨q, .misjump hr hplan⟩
  | save => exact ⟨p', .save⟩
  | unsave => exact ⟨q, .unsave⟩
  | publish => exact ⟨q, .publish⟩
  | refuse => exact ⟨q, .refuse⟩
  | settle => exact ⟨q, .settle⟩
  | arrive => exact ⟨q, .arrive⟩
  | suspend => exact ⟨q, .suspend⟩
  | unschedule => exact ⟨q, .unschedule⟩
  | wake => exact ⟨q, .wake⟩

/-- What the call that waits for a completion is told; nothing if it is cut off. -/
def Reply.to (k : CompletionId) (ts : List (CompletionId × Option Reply)) : List (Option Reply) :=
  (ts.filter fun t => t.1 == k).map Prod.snd

/-- The deeds for the chain that owes a completion. -/
def Deed.owing (k : CompletionId) (ds : List (Chain × Deed)) : List Deed :=
  Deed.of (fun c => c.completion == some k) ds

theorem Reply.to_append (k : CompletionId) (ts ts' : List (CompletionId × Option Reply)) :
    Reply.to k (ts ++ ts') = Reply.to k ts ++ Reply.to k ts' := by
  simp only [Reply.to, List.filter_append, List.map_append]

theorem Deed.owing_append (k : CompletionId) (ds ds' : List (Chain × Deed)) :
    Deed.owing k (ds ++ ds') = Deed.owing k ds ++ Deed.owing k ds' :=
  Deed.of_append _ ds ds'

/-- What one change keeps with the deeds for a completion and with what its call is told, any number of
changes do. -/
theorem Account.Steps.keeps_told {S : Standard} {k : CompletionId}
    {P : List Deed → List (Option Reply) → Account → Prop}
    (hstep : ∀ {T R A B ds ts}, P T R A → Account.Step S A ds ts B →
      P (T ++ Deed.owing k ds) (R ++ Reply.to k ts) B)
    {T : List Deed} {R : List (Option Reply)} {A B : Account} {ds : List (Chain × Deed)}
    {ts : List (CompletionId × Option Reply)} (h : P T R A) (hsteps : Account.Steps S A ds ts B) :
    P (T ++ Deed.owing k ds) (R ++ Reply.to k ts) B := by
  induction hsteps with
  | refl =>
    have nothing : Deed.owing k [] = [] := rfl
    have silent : Reply.to k [] = [] := rfl
    rw [nothing, silent, List.append_nil, List.append_nil]
    exact h
  | tail _ hs ih =>
    rw [Deed.owing_append, Reply.to_append, ← List.append_assoc, ← List.append_assoc]
    exact hstep ih hs

theorem Deed.owing_of_eq {k : CompletionId} {c : Chain} (hc : c.completion = some k)
    (ds : List Deed) : Deed.owing k (ds.map (c, ·)) = ds := by
  have hown : (c.completion == some k) = true := beq_iff_eq.2 hc
  exact Deed.of_map_of_pos (p := fun c => c.completion == some k) hown ds

theorem Deed.owing_of_ne {k : CompletionId} {c : Chain} (hc : c.completion ≠ some k)
    (ds : List Deed) : Deed.owing k (ds.map (c, ·)) = [] := by
  have hother : (c.completion == some k) = false := beq_eq_false_iff_ne.2 hc
  exact Deed.of_map_of_neg (p := fun c => c.completion == some k) hother ds

theorem Deed.owing_singleton_of_eq {k : CompletionId} {c : Chain} (hc : c.completion = some k)
    (d : Deed) : Deed.owing k [(c, d)] = [d] :=
  Deed.owing_of_eq hc [d]

theorem Deed.owing_singleton_of_ne {k : CompletionId} {c : Chain} (hc : c.completion ≠ some k)
    (d : Deed) : Deed.owing k [(c, d)] = [] :=
  Deed.owing_of_ne hc [d]

theorem count_receiver_of_ne {k : CompletionId} {o : Origin} (ho : o.receiver? ≠ some k) :
    Multiset.count k (o.receiver?.toList : Multiset CompletionId) = 0 := by
  rw [Multiset.coe_count]
  exact List.count_eq_zero_of_not_mem fun hmem => ho (by simpa using hmem)

/-- A chain that still owes its completion has decided nothing. -/
theorem Goes.not_final {k : CompletionId} {p p' : Nat} {c c' : Chain} {φ φ' : Phase}
    {ds : List Deed} (h : Goes p c φ ds p' c' φ') (hc : c'.completion = some k) :
    ∀ x ∈ ds, x.isFinal = false := by
  cases h with
  | settle => cases hc
  | _ => simp [Deed.isFinal]

namespace Account

/-- The strands that have to do with a completion. -/
def parties (A : Account) (k : CompletionId) : Multiset Strand :=
  A.strands.filter (Strand.IsParty k)

/-- A strand owes a completion, within the call that waits for it or after a delay. -/
structure Owes (A : Account) (k : CompletionId) (T : List Deed) (R : List (Option Reply))
    (s : Strand) : Prop where
  owner : s.chain.completion = some k
  caller : (∃ r, s.origin = .call r (some k)) ∧ A.waiting.count k = 0 ∧ R = [] ∨
    s.origin = .continuation ∧ R.length + A.waiting.count k = 1 ∧ ∀ x ∈ R, x = none
  settled : A.settled k = none
  lt_next : k.number < A.next
  final : ∀ x ∈ T, x.isFinal = false
  recalls : ∃ p₀ p, Recalls s.chain.definition p₀ T s.chain s.phase p

/-- A strand has settled the completion, and is about to stop within the call that waits for it. -/
structure Closes (A : Account) (k : CompletionId) (T : List Deed) (s : Strand) : Prop where
  owner : s.chain.completion = none
  caller : ∃ r, s.origin = .call r (some k)
  waiting : A.waiting.count k = 0
  isOver : s.phase.IsOver
  settled : ∃ v, A.settled k = some v ∧ Deed.Verdict T v
  lt_next : k.number < A.next

/-- What the caller is told, if it has not been told before, is decided to be the settlement. -/
structure Decides (A : Account) (k : CompletionId) (T : List Deed) (R : List (Option Reply))
    (v : Settlement) : Prop where
  one : R.length + A.waiting.count k = 1
  waiting : 0 < A.waiting.count k → A.settled k = some v ∨
    A.settled k = none ∧ v = .error (.fault .cancelled)
  replies : ∀ x ∈ R, x = none ∨ x = some (.settled v)
  verdict : Deed.Verdict T v

/-- What has become of a completion: the deeds of the chain that owed it, for as long as it did, and
what its caller has been told. -/
inductive Promise (k : CompletionId) (T : List Deed) (R : List (Option Reply)) (A : Account) : Prop
  | unmade (hT : T = []) (hR : R = []) (hparties : A.parties k = 0)
      (hwaiting : A.waiting.count k = 0) (hsettled : A.settled k = none)
  | owed {s} (hparties : A.parties k = {s}) (h : A.Owes k T R s)
  | closing {s} (hparties : A.parties k = {s}) (h : A.Closes k T s) (hR : R = [])
  /-- The chain has left: what the caller is told has been decided. -/
  | decided {v} (hparties : A.parties k = 0) (h : A.Decides k T R v) (hnext : k.number < A.next)
  /-- A step has panicked. -/
  | panicked (h : .panicked ∈ T)

variable {k : CompletionId} {T : List Deed} {R : List (Option Reply)} {A B : Account}
  {s s' : Strand} {rest : Multiset Strand} {o : Origin} {c c' : Chain} {fault : Fault}

theorem parties_of_pos (hA : A.strands = s ::ₘ rest) (hs : s.IsParty k) :
    A.parties k = s ::ₘ rest.filter (Strand.IsParty k) := by
  rw [parties, hA, Multiset.filter_cons_of_pos _ hs]

theorem parties_of_neg (hA : A.strands = s ::ₘ rest) (hs : ¬ s.IsParty k) :
    A.parties k = rest.filter (Strand.IsParty k) := by
  rw [parties, hA, Multiset.filter_cons_of_neg _ hs]

theorem Closes.completion_ne (h : A.Closes k T s) : s.chain.completion ≠ some k := by
  rw [h.owner]
  simp

theorem not_lost_of_final (hT : ∀ x ∈ T, x.isFinal = false) {d : Deed} (hd : d ≠ .lost) :
    .lost ∉ T ++ [d] := by
  intro h
  rcases List.mem_append.1 h with h | h
  · cases hT _ h
  · exact hd (List.mem_singleton.1 h).symm

/-- If a chain that owes the completion is no more, its caller is told that it is cancelled. -/
theorem Owes.decides_cancelled (h : A.Owes k T R s) {T' : List Deed} {rs : List (Option Reply)}
    (hwaiting : B.waiting = A.waiting) (hsettled : B.settled = A.settled)
    (hT' : Deed.Verdict T' (.error (.fault .cancelled)))
    (hrs : (∃ r, s.origin = .call r (some k)) ∧ rs = [none] ∨ s.origin = .continuation ∧ rs = []) :
    B.Decides k T' (R ++ rs) (.error (.fault .cancelled)) := by
  have hsilent : ∀ x ∈ R ++ rs, x = none := by
    intro x hx
    rcases List.mem_append.1 hx with hx | hx
    · obtain ⟨-, -, rfl⟩ | ⟨-, -, hR⟩ := h.caller
      · cases hx
      · exact hR x hx
    · obtain ⟨-, rfl⟩ | ⟨-, rfl⟩ := hrs
      · exact List.mem_singleton.1 hx
      · cases hx
  refine ⟨?_, fun _ => .inr ⟨hsettled ▸ h.settled, rfl⟩, fun x hx => .inl (hsilent x hx), hT'⟩
  rw [hwaiting, List.length_append]
  obtain ⟨⟨r, hr⟩, hcount, rfl⟩ | ⟨hr, hone, -⟩ := h.caller
  · obtain ⟨-, rfl⟩ | ⟨hr', -⟩ := hrs
    · rw [hcount]
      rfl
    · rw [hr] at hr'
      cases hr'
  · obtain ⟨⟨r', hr'⟩, -⟩ | ⟨-, rfl⟩ := hrs
    · rw [hr] at hr'
      cases hr'
    · rw [List.length_nil]
      omega

/-- A fault that halts a chain decides what its caller is told. -/
theorem Owes.verdict_halted (h : A.Owes k T R ⟨o, c, .halting fault⟩) :
    Deed.Verdict (T ++ [.halted fault]) (.error (.fault fault)) := by
  obtain ⟨p₀, q, hrecalls⟩ := h.recalls
  exact (hrecalls.answers_halted h.final).verdict (not_lost_of_final h.final (by simp))

/-- Once a chain has settled, what its caller is told remains decided. -/
theorem Closes.decides (h : A.Closes k T s) (hsettled : B.settled = A.settled) :
    ∃ v, A.settled k = some v ∧ ∀ rs : List (Option Reply), rs.length + B.waiting.count k = 1 →
      (∀ x ∈ rs, x = none ∨ x = some (.settled v)) → B.Decides k T rs v := by
  obtain ⟨v, hv, hverdict⟩ := h.settled
  exact ⟨v, hv, fun rs hone hrs => ⟨hone, fun _ => .inl (hsettled ▸ hv), hrs, hverdict⟩⟩

theorem settle_of_ne {j : Option CompletionId} (hj : j ≠ some k) (v : Settlement) :
    A.settle j v k = A.settled k := by
  cases j with
  | none => rfl
  | some j =>
    have hne : k ≠ j := fun heq => hj (congrArg some heq.symm)
    exact Function.update_of_ne hne _ _

theorem told_of_ne {o : Origin} (ho : o.receiver? ≠ some k) (reply : CompletionId → Option Reply) :
    Reply.to k (told reply o) = [] := by
  cases hreceiver : o.receiver? with
  | none => simp [told, hreceiver, Reply.to]
  | some j =>
    rw [hreceiver] at ho
    have hj : j ≠ k := fun heq => ho (congrArg some heq)
    simp [told, hreceiver, Reply.to, hj]

theorem told_of_eq {o : Origin} (ho : o.receiver? = some k) (reply : CompletionId → Option Reply) :
    Reply.to k (told reply o) = [reply k] := by
  simp [told, ho, Reply.to]

namespace Promise

/-- What has to do with other completions does not matter. -/
theorem mono (h : Promise k T R A) (hparties : B.parties k = A.parties k)
    (hwaiting : B.waiting.count k = A.waiting.count k) (hsettled : B.settled k = A.settled k)
    (hnext : A.next ≤ B.next) : Promise k T R B := by
  cases h with
  | unmade hT hR hp hw hs =>
    exact .unmade hT hR (hparties.trans hp) (hwaiting.trans hw) (hsettled.trans hs)
  | owed hp ho =>
    refine .owed (hparties.trans hp) ⟨ho.owner, ?_, hsettled.trans ho.settled,
      Nat.lt_of_lt_of_le ho.lt_next hnext, ho.final, ho.recalls⟩
    rw [hwaiting]
    exact ho.caller
  | closing hp hc hR =>
    exact .closing (hparties.trans hp) ⟨hc.owner, hc.caller, hwaiting.trans hc.waiting, hc.isOver,
      hsettled.symm ▸ hc.settled, Nat.lt_of_lt_of_le hc.lt_next hnext⟩ hR
  | decided hp hd hn =>
    refine .decided (hparties.trans hp) ⟨?_, ?_, hd.replies, hd.verdict⟩
      (Nat.lt_of_lt_of_le hn hnext)
    · rw [hwaiting]
      exact hd.one
    · rw [hwaiting, hsettled]
      exact hd.waiting
  | panicked h => exact .panicked h

/-- A strand that has to do with the completion is the only one. -/
theorem of_party (h : Promise k T R A) (hA : A.strands = s ::ₘ rest) (hs : s.IsParty k) :
    .panicked ∈ T ∨ rest.filter (Strand.IsParty k) = 0 ∧
      (A.Owes k T R s ∨ A.Closes k T s ∧ R = []) := by
  have hcons := parties_of_pos hA hs
  have only : ∀ {s'}, A.parties k = {s'} → s' = s ∧ rest.filter (Strand.IsParty k) = 0 := by
    intro s' hsingle
    rw [hcons] at hsingle
    have hcard := congrArg Multiset.card hsingle
    rw [Multiset.card_cons, Multiset.card_singleton] at hcard
    have hrest : rest.filter (Strand.IsParty k) = 0 := Multiset.card_eq_zero.1 (by omega)
    rw [hrest] at hsingle
    exact ⟨(Multiset.singleton_inj.1 hsingle).symm, hrest⟩
  cases h with
  | unmade hT hR hp hw hsettled => exact absurd (hcons.symm.trans hp) (Multiset.cons_ne_zero)
  | owed hp ho =>
    obtain ⟨rfl, hrest⟩ := only hp
    exact .inr ⟨hrest, .inl ho⟩
  | closing hp hc hR =>
    obtain ⟨rfl, hrest⟩ := only hp
    exact .inr ⟨hrest, .inr ⟨hc, hR⟩⟩
  | decided hp hd hn => exact absurd (hcons.symm.trans hp) (Multiset.cons_ne_zero)
  | panicked h => exact .inl h

/-- A strand that has nothing to do with the completion is replaced by others. -/
theorem other (h : Promise k T R A) (hA : A.strands = s ::ₘ rest) (hs : ¬ s.IsParty k)
    {M : Multiset Strand} (hM : M.filter (Strand.IsParty k) = 0) (hB : B.strands = M + rest)
    (hwaiting : B.waiting.count k = A.waiting.count k) (hsettled : B.settled k = A.settled k)
    (hnext : A.next ≤ B.next) : Promise k T R B := by
  refine h.mono ?_ hwaiting hsettled hnext
  rw [parties_of_neg hA hs, parties, hB, Multiset.filter_add, hM, Multiset.zero_add]

/-- A strand that has nothing to do with the completion goes on without having to do with it. -/
theorem aside (h : Promise k T R A) (hA : A.strands = s ::ₘ rest) (hs : ¬ s.IsParty k)
    (hB : B.strands = s' ::ₘ rest) (hs' : ¬ s'.IsParty k)
    (hwaiting : B.waiting.count k = A.waiting.count k) (hsettled : B.settled k = A.settled k)
    (hnext : A.next ≤ B.next) : Promise k T R B := by
  have hM : ({s'} : Multiset Strand).filter (Strand.IsParty k) = 0 := by
    rw [Multiset.filter_singleton, if_neg hs']
    rfl
  exact h.other hA hs hM hB hwaiting hsettled hnext

end Promise

end Account

end DurableFlow
