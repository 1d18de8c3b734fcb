import DurableFlow.Proofs.Settlement.Promises

/-!
# Promises are kept

Each change of an account keeps the promises about its completions: the chain that owes one goes on
and still owes it, settles it, or is gone, and then what its caller is told has been decided. Main
statement: whatever happens, a promise is kept (`Promise.passes`).
-/

namespace DurableFlow

namespace Account

variable {k : CompletionId} {T : List Deed} {R : List (Option Reply)} {A B : Account}
  {s s' : Strand} {rest : Multiset Strand} {o : Origin} {c c' : Chain} {fault : Fault}

variable {φ φ' : Phase} {v : Settlement}

/-- Once its chain has settled, a call is told when it is gone, unless it is cut off. -/
theorem Closes.tells (h : A.Closes k T ⟨o, c, φ⟩) (reply : CompletionId → Option Reply)
    (hreply : ∀ v, A.settled k = some v → reply k = none ∨ reply k = some (.settled v)) :
    ∃ v, Decides { A with strands := rest } k T (Reply.to k (told reply o)) v := by
  obtain ⟨r, rfl⟩ := h.caller
  obtain ⟨v, hv, hdecides⟩ := h.decides (B := { A with strands := rest }) rfl
  rw [told_of_eq rfl]
  refine ⟨v, hdecides _ ?_ fun x hx => List.mem_singleton.1 hx ▸ hreply v hv⟩
  show 1 + A.waiting.count k = 1
  rw [h.waiting]

/-- A caller who is cut off is owed what he was, and is told nothing more. -/
theorem Owes.cut_off (h : A.Owes k T R s) (hcount : A.waiting.count k = B.waiting.count k + 1)
    (hsettled : B.settled = A.settled) (hnext : B.next = A.next) : B.Owes k T (R ++ [none]) s := by
  refine ⟨h.owner, .inr ?_, hsettled ▸ h.settled, hnext ▸ h.lt_next, h.final, h.recalls⟩
  obtain ⟨-, hzero, -⟩ | ⟨horigin, hone, hR⟩ := h.caller
  · omega
  · refine ⟨horigin, ?_, fun x hx => ?_⟩
    · rw [List.length_append, List.length_singleton]
      omega
    · rcases List.mem_append.1 hx with hx | hx
      · exact hR x hx
      · exact List.mem_singleton.1 hx

/-- The one caller is told what is decided, or is cut off. -/
theorem Decides.tell (h : A.Decides k T R v) (hcount : A.waiting.count k = B.waiting.count k + 1)
    {x : Option Reply} (hx : x = none ∨ x = some (.settled v)) : B.Decides k T (R ++ [x]) v := by
  have hone := h.one
  refine ⟨?_, fun hpos => ?_, fun y hy => ?_, h.verdict⟩
  · rw [List.length_append, List.length_singleton]
    omega
  · omega
  · rcases List.mem_append.1 hy with hy | hy
    · exact h.replies y hy
    · rw [List.mem_singleton.1 hy]
      exact hx

namespace Promise

variable {ds : List Deed} {p : Nat}

/-- A chain goes on, and owes what it did before. -/
theorem go (h : Promise k T R A) (hA : A.strands = ⟨o, c, φ⟩ ::ₘ rest)
    (hgo : Goes (A.position c.inst) c φ ds p c' φ') (hc : c'.completion = c.completion)
    (hB : B.strands = ⟨o, c', φ'⟩ ::ₘ rest) (hwaiting : B.waiting = A.waiting)
    (hsettled : B.settled = A.settled) (hnext : B.next = A.next) :
    Promise k (T ++ Deed.owing k (ds.map (c, ·))) R B := by
  have hiff : Strand.IsParty k ⟨o, c', φ'⟩ ↔ Strand.IsParty k ⟨o, c, φ⟩ := by
    simp only [Strand.IsParty, hc]
  by_cases hs : Strand.IsParty k ⟨o, c, φ⟩
  · have hparties := parties_of_pos hB (hiff.2 hs)
    obtain hpanicked | ⟨hrest, howes | ⟨hcloses, hR⟩⟩ := h.of_party hA hs
    · exact .panicked (List.mem_append_left _ hpanicked)
    · rw [Deed.owing_of_eq howes.owner]
      rw [hrest] at hparties
      obtain ⟨p₀, q, hrecalls⟩ := howes.recalls
      obtain ⟨q', hgo'⟩ := hgo.anywhere q
      refine .owed hparties ⟨hc.trans howes.owner, ?_, ?_, ?_, ?_, p₀, q', ?_⟩
      · rw [hwaiting]
        exact howes.caller
      · rw [hsettled]
        exact howes.settled
      · rw [hnext]
        exact howes.lt_next
      · intro x hx
        rcases List.mem_append.1 hx with hx | hx
        · exact howes.final x hx
        · exact hgo.not_final (hc.trans howes.owner) x hx
      · have hrecalls' := hrecalls.goes rfl hgo'
        rw [← hgo.definition_eq] at hrecalls'
        exact hrecalls'
    · rw [Deed.owing_of_ne hcloses.completion_ne, List.append_nil]
      rw [hrest] at hparties
      refine .closing hparties ⟨hc.trans hcloses.owner, hcloses.caller, ?_,
        hgo.isOver hcloses.isOver, ?_, ?_⟩ hR
      · rw [hwaiting]
        exact hcloses.waiting
      · rw [hsettled]
        exact hcloses.settled
      · rw [hnext]
        exact hcloses.lt_next
  · have hne : c.completion ≠ some k := fun heq => hs (.inl heq)
    rw [Deed.owing_of_ne hne, List.append_nil]
    exact h.aside hA hs hB (mt hiff.1 hs) (by rw [hwaiting]) (by rw [hsettled]) hnext.ge

/-- A chain settles, and goes on for as long as it takes to stop. -/
theorem settle (h : Promise k T R A) {v : Settlement} {es : List Effect} {turn : Turn}
    (hA : A.strands = ⟨o, c, .acting ⟨.settle v :: es, turn⟩⟩ ::ₘ rest)
    (hB : B.strands = ⟨o, { c with completion := none }, .acting ⟨es, turn⟩⟩ ::ₘ rest)
    (hwaiting : B.waiting = A.waiting) (hsettled : B.settled = A.settle c.completion v)
    (hnext : B.next = A.next) : Promise k (T ++ Deed.owing k [(c, .settled v)]) R B := by
  by_cases howner : c.completion = some k
  · have hs : Strand.IsParty k ⟨o, c, .acting ⟨.settle v :: es, turn⟩⟩ := .inl howner
    obtain hpanicked | ⟨hrest, howes | ⟨hcloses, -⟩⟩ := h.of_party hA hs
    · exact .panicked (List.mem_append_left _ hpanicked)
    · obtain ⟨p₀, q, hrecalls⟩ := howes.recalls
      obtain ⟨⟨result, rfl⟩, hanswers⟩ := hrecalls.answers_settled howes.final
      have hverdict : Deed.Verdict (T ++ [.settled v]) v :=
        hanswers.verdict (not_lost_of_final howes.final (by simp))
      have hset : B.settled k = some v := by
        rw [hsettled, howner]
        exact Function.update_self ..
      have hlt : k.number < B.next := hnext ▸ howes.lt_next
      rw [Deed.owing_singleton_of_eq howner]
      obtain ⟨⟨r, rfl⟩, hcount, hR⟩ | ⟨rfl, hone, hR⟩ := howes.caller
      · have hparties := parties_of_pos (k := k) hB (.inr rfl)
        rw [hrest] at hparties
        exact .closing hparties
          ⟨rfl, ⟨r, rfl⟩, hwaiting ▸ hcount, rfl, ⟨v, hset, hverdict⟩, hlt⟩ hR
      · have hparties := parties_of_neg (k := k) hB (by rintro (h | h) <;> cases h)
        rw [hrest] at hparties
        exact .decided hparties
          ⟨hwaiting ▸ hone, fun _ => .inl hset, fun x hx => .inl (hR x hx), hverdict⟩ hlt
    · exact absurd howner hcloses.completion_ne
  · cases hnone : c.completion with
    | none =>
      -- Whoever owes nothing settles nothing.
      rw [hnone] at hsettled
      have hposition : Goes (A.position c.inst) c (.acting ⟨.settle v :: es, turn⟩)
          [.settled v] (A.position c.inst) { c with completion := none } (.acting ⟨es, turn⟩) :=
        .settle
      exact h.go hA hposition hnone.symm hB hwaiting hsettled hnext
    | some k' =>
      have hset : B.settled k = A.settled k := by
        rw [hsettled]
        exact settle_of_ne howner v
      rw [Deed.owing_singleton_of_ne howner, List.append_nil]
      by_cases hs : Strand.IsParty k ⟨o, c, .acting ⟨.settle v :: es, turn⟩⟩
      · obtain hpanicked | ⟨-, howes | ⟨hcloses, -⟩⟩ := h.of_party hA hs
        · exact .panicked hpanicked
        · exact absurd howes.owner howner
        · have hclosed : c.completion = none := hcloses.owner
          rw [hclosed] at hnone
          cases hnone
      · refine h.aside hA hs hB ?_ (by rw [hwaiting]) hset hnext.ge
        rintro (heq | heq)
        · cases heq
        · exact hs (.inr heq)

/-- A chain is laid to rest; if its call waits for it, the call now waits for the completion. -/
theorem suspend (h : Promise k T R A) {next : Nat} {due : Instant}
    (hA : A.strands = ⟨o, c, .acting ⟨[], .suspend next due⟩⟩ ::ₘ rest)
    (hB : B.strands = ⟨.continuation, c, .resting next⟩ ::ₘ rest)
    (hwaiting : B.waiting = o.receiver?.toList + A.waiting) (hsettled : B.settled = A.settled)
    (hnext : B.next = A.next) : Promise k (T ++ Deed.owing k [(c, .suspended next)]) R B := by
  by_cases hs : Strand.IsParty k ⟨o, c, .acting ⟨[], .suspend next due⟩⟩
  · obtain hpanicked | ⟨hrest, howes | ⟨hcloses, -⟩⟩ := h.of_party hA hs
    · exact .panicked (List.mem_append_left _ hpanicked)
    · have howner : c.completion = some k := howes.owner
      have hparties := parties_of_pos (k := k) hB (.inl howner)
      rw [hrest] at hparties
      rw [Deed.owing_singleton_of_eq howner]
      obtain ⟨p₀, q, hrecalls⟩ := howes.recalls
      refine .owed hparties ⟨howner, .inr ⟨rfl, ?_⟩, ?_, ?_, ?_, p₀, q, ?_⟩
      · rw [hwaiting, Multiset.count_add]
        obtain ⟨⟨r, rfl⟩, hcount, rfl⟩ | ⟨rfl, hone, hR⟩ := howes.caller
        · rw [hcount, Nat.add_zero]
          show 0 + Multiset.count k ({k} : Multiset CompletionId) = 1 ∧ ∀ x ∈ [], x = none
          rw [Multiset.count_singleton_self]
          exact ⟨rfl, by simp⟩
        · show R.length + (Multiset.count k (0 : Multiset CompletionId) + A.waiting.count k) = 1 ∧ _
          rw [Multiset.count_zero, Nat.zero_add]
          exact ⟨hone, hR⟩
      · rw [hsettled]
        exact howes.settled
      · rw [hnext]
        exact howes.lt_next
      · intro x hx
        rcases List.mem_append.1 hx with hx | hx
        · exact howes.final x hx
        · rw [List.mem_singleton.1 hx]
          rfl
      · exact hrecalls.goes rfl .suspend
    · cases hcloses.isOver
  · have howner : c.completion ≠ some k := fun heq => hs (.inl heq)
    have hreceiver : o.receiver? ≠ some k := fun heq => hs (.inr heq)
    rw [Deed.owing_singleton_of_ne howner, List.append_nil]
    refine h.aside hA hs hB ?_ ?_ (by rw [hsettled]) hnext.ge
    · rintro (heq | heq)
      · exact howner heq
      · cases heq
    · rw [hwaiting, Multiset.count_add, count_receiver_of_ne hreceiver, Nat.zero_add]

/-- A strand is gone: if it had to do with the completion, what the caller is told is decided. -/
theorem gone (h : Promise k T R A) (hA : A.strands = ⟨o, c, φ⟩ ::ₘ rest) (hB : B.strands = rest)
    (hnext : B.next = A.next) {d : Deed} {rs : List (Option Reply)}
    (hother : ¬ Strand.IsParty k ⟨o, c, φ⟩ → rs = [] ∧ B.waiting.count k = A.waiting.count k ∧
      B.settled k = A.settled k)
    (howes : A.Owes k T R ⟨o, c, φ⟩ → d = .panicked ∨ ∃ v, B.Decides k (T ++ [d]) (R ++ rs) v)
    (hcloses : A.Closes k T ⟨o, c, φ⟩ → ∃ v, B.Decides k T rs v) :
    Promise k (T ++ Deed.owing k [(c, d)]) (R ++ rs) B := by
  by_cases hs : Strand.IsParty k ⟨o, c, φ⟩
  · obtain hpanicked | ⟨hrest, ho | ⟨hc, rfl⟩⟩ := h.of_party hA hs
    · exact .panicked (List.mem_append_left _ hpanicked)
    · rw [Deed.owing_singleton_of_eq ho.owner]
      obtain rfl | ⟨v, hv⟩ := howes ho
      · exact .panicked (List.mem_append_right _ List.mem_cons_self)
      · exact .decided (by rw [parties, hB, hrest]) hv (hnext ▸ ho.lt_next)
    · rw [Deed.owing_singleton_of_ne hc.completion_ne, List.append_nil]
      obtain ⟨v, hv⟩ := hcloses hc
      exact .decided (by rw [parties, hB, hrest]) hv (hnext ▸ hc.lt_next)
  · have howner : c.completion ≠ some k := fun heq => hs (.inl heq)
    obtain ⟨rfl, hwaiting, hsettled⟩ := hother hs
    rw [Deed.owing_singleton_of_ne howner, List.append_nil, List.append_nil]
    exact h.other hA hs (M := 0) rfl (hB.trans (Multiset.zero_add _).symm) hwaiting hsettled
      hnext.ge

/-- A call no longer waits, because it is told or because it is cut off. -/
theorem tell (h : Promise k T R A) {j : CompletionId} {x : Option Reply} {W : Multiset CompletionId}
    (hA : A.waiting = j ::ₘ W)
    (hx : x = none ∨ ∃ v, x = some (.settled v) ∧ (A.settled j = some v ∨
      A.settled j = none ∧ v = .error (.fault .cancelled) ∧
        ∀ s ∈ A.strands, s.chain.completion ≠ some j))
    (hstrands : B.strands = A.strands) (hwaiting : B.waiting = W) (hsettled : B.settled = A.settled)
    (hnext : B.next = A.next) : Promise k T (R ++ Reply.to k [(j, x)]) B := by
  have hparties : B.parties k = A.parties k := by rw [parties, parties, hstrands]
  by_cases hj : j = k
  · subst hj
    have hcount : A.waiting.count j = B.waiting.count j + 1 := by
      rw [hA, hwaiting, Multiset.count_cons_self]
    have hreply : Reply.to j [(j, x)] = [x] := by simp [Reply.to]
    rw [hreply]
    cases h with
    | unmade hT hR hp hw hs => omega
    | @owed s hp ho =>
      -- Nobody is told while the completion is owed.
      obtain rfl | ⟨v, rfl, hsome | ⟨-, -, hnone⟩⟩ := hx
      · exact .owed (hparties.trans hp) (ho.cut_off hcount hsettled hnext)
      · rw [ho.settled] at hsome
        cases hsome
      · have hmem : s ∈ A.parties j := hp ▸ Multiset.mem_singleton_self s
        exact absurd ho.owner (hnone s (Multiset.mem_of_mem_filter hmem))
    | closing hp hc hR =>
      have hnone := hc.waiting
      omega
    | @decided w hp hd hn =>
      have htold : x = none ∨ x = some (.settled w) := by
        obtain rfl | ⟨v, rfl, hv⟩ := hx
        · exact .inl rfl
        rcases hd.waiting (by omega), hv with ⟨hw | ⟨hw, rfl⟩, hsome | ⟨hnone, rfl, -⟩⟩
        · cases hw.symm.trans hsome
          exact .inr rfl
        · cases hw.symm.trans hnone
        · cases hw.symm.trans hsome
        · exact .inr rfl
      exact .decided (hparties.trans hp) (hd.tell hcount htold) (hnext ▸ hn)
    | panicked h => exact .panicked h
  · have hreply : Reply.to k [(j, x)] = [] := by simp [Reply.to, hj]
    rw [hreply, List.append_nil]
    refine h.mono hparties ?_ (by rw [hsettled]) hnext.ge
    rw [hwaiting, hA, Multiset.count_cons_of_ne (Ne.symm hj)]

/-- A chain that stops has settled; if its call waits for it, it is about to be told. -/
theorem stop (h : Promise k T R A) {result : RunResult}
    (hA : A.strands = ⟨o, c, .acting ⟨[], .stop result⟩⟩ ::ₘ rest) :
    Promise k (T ++ Deed.owing k [(c, .stopped result)]) R
      { A with strands := rest, waiting := o.receiver?.toList + A.waiting } := by
  rw [← List.append_nil R]
  refine h.gone (B := { A with strands := rest, waiting := o.receiver?.toList + A.waiting }) hA
    rfl rfl ?_ ?_ ?_
  · intro hs
    refine ⟨rfl, ?_, rfl⟩
    show Multiset.count k (_ + A.waiting) = A.waiting.count k
    rw [Multiset.count_add, count_receiver_of_ne fun heq => hs (.inr heq), Nat.zero_add]
  · intro ho
    obtain ⟨p₀, q, T₀, i, r, rfl, -, hround⟩ := ho.recalls
    obtain ⟨v, hv⟩ := hround.settled_of_stop
    cases ho.final _ (List.mem_append_right _ hv)
  · intro hc
    obtain ⟨r, rfl⟩ := hc.caller
    have hcount := hc.waiting
    obtain ⟨v, -, hdecides⟩ := hc.decides (B := { A with
      strands := rest
      waiting := (Origin.call r (some k)).receiver?.toList + A.waiting }) rfl
    refine ⟨v, hdecides _ ?_ (fun x hx => (List.not_mem_nil hx).elim)⟩
    show 0 + Multiset.count k ({k} + A.waiting) = 1
    rw [Multiset.count_add, Multiset.count_singleton_self]
    omega

/-- A call whose chain is halted is told what has been settled, or the fault. -/
theorem haltCall (h : Promise k T R A) (hA : A.strands = ⟨o, c, .halting fault⟩ ::ₘ rest)
    (ho : o ≠ .continuation) :
    Promise k (T ++ Deed.owing k [(c, .halted fault)])
      (R ++ Reply.to k (told (A.haltReply · fault) o)) { A with strands := rest } := by
  refine h.gone (B := { A with strands := rest }) hA rfl rfl ?_ ?_ fun hc =>
    hc.tells (A.haltReply · fault) fun v hv => .inr (by simp [haltReply, hv])
  · intro hs
    exact ⟨told_of_ne (fun heq => hs (.inr heq)) _, rfl, rfl⟩
  · intro howes
    obtain ⟨⟨r, rfl⟩, hcount, rfl⟩ | ⟨hcontinuation, -⟩ := howes.caller
    · have hreply : Reply.to k (told (A.haltReply · fault) (.call r (some k))) =
          [some (.settled (.error (.fault fault)))] := by
        rw [told_of_eq rfl, haltReply, howes.settled]
        rfl
      rw [hreply]
      refine .inr ⟨.error (.fault fault), ?_, ?_, ?_, howes.verdict_halted⟩
      · show 1 + A.waiting.count k = 1
        omega
      · intro hpos
        have hzero : 0 < A.waiting.count k := hpos
        omega
      · intro reply hreply
        exact .inr (List.mem_singleton.1 hreply)
    · exact absurd hcontinuation ho

/-- A chain that goes on after a delay and is halted settles the fault, for whoever waits. -/
theorem haltContinuation (h : Promise k T R A)
    (hA : A.strands = ⟨.continuation, c, .halting fault⟩ ::ₘ rest) :
    Promise k (T ++ Deed.owing k [(c, .halted fault)]) R { A with
      strands := rest
      settled := A.settle c.completion (.error (.fault fault)) } := by
  rw [← List.append_nil R]
  refine h.gone (B := { A with
    strands := rest
    settled := A.settle c.completion (.error (.fault fault)) }) hA rfl rfl ?_ ?_ ?_
  · intro hs
    refine ⟨rfl, rfl, ?_⟩
    show A.settle c.completion _ k = A.settled k
    exact settle_of_ne (fun heq => hs (.inl heq)) _
  · intro howes
    have howner : c.completion = some k := howes.owner
    rw [List.append_nil]
    obtain ⟨⟨r, hr⟩, -⟩ | ⟨-, hone, hR⟩ := howes.caller
    · cases hr
    · refine .inr ⟨.error (.fault fault), hone, fun _ => .inl ?_, fun x hx => .inl (hR x hx),
        howes.verdict_halted⟩
      show A.settle c.completion _ k = _
      rw [howner]
      exact Function.update_self ..
  · intro hc
    obtain ⟨r, hr⟩ := hc.caller
    cases hr

/-- A chain that is cut off breaks its promise: whoever waits for it is told of a cancellation. -/
theorem lose (h : Promise k T R A) (hA : A.strands = ⟨o, c, φ⟩ ::ₘ rest) :
    Promise k (T ++ Deed.owing k [(c, .lost)]) (R ++ Reply.to k (told (fun _ => none) o))
      { A with strands := rest } := by
  refine h.gone (B := { A with strands := rest }) hA rfl rfl ?_ ?_ fun hc =>
    hc.tells (fun _ => none) fun _ _ => .inl rfl
  · intro hs
    exact ⟨told_of_ne (fun heq => hs (.inr heq)) _, rfl, rfl⟩
  · intro ho
    refine .inr ⟨_, ho.decides_cancelled rfl rfl
      (Deed.verdict_of_lost (List.mem_append_right _ List.mem_cons_self)) ?_⟩
    obtain ⟨⟨r, rfl⟩, -⟩ | ⟨rfl, -⟩ := ho.caller
    · exact .inl ⟨⟨r, rfl⟩, told_of_eq rfl _⟩
    · exact .inr ⟨rfl, rfl⟩

/-- So does one that is dropped while it rests. -/
theorem drop (h : Promise k T R A) {next : Nat}
    (hA : A.strands = ⟨.continuation, c, .resting next⟩ ::ₘ rest) :
    Promise k (T ++ Deed.owing k [(c, .dropped)]) R { A with strands := rest } := by
  rw [← List.append_nil R]
  refine h.gone (B := { A with strands := rest }) hA rfl rfl (fun _ => ⟨rfl, rfl, rfl⟩) ?_
    fun hc => hc.isOver.elim
  intro ho
  obtain ⟨p₀, q, hrecalls⟩ := ho.recalls
  exact .inr ⟨_, ho.decides_cancelled rfl rfl ((hrecalls.answers_dropped ho.final).verdict
    (not_lost_of_final ho.final (by simp))) (.inr ⟨rfl, rfl⟩)⟩

/-- A panic of a step breaks it too, but nothing is promised then. -/
theorem panic (h : Promise k T R A) {i : Nat} (reply : CompletionId → Option Reply)
    (hA : A.strands = ⟨o, c, .within i⟩ ::ₘ rest) :
    Promise k (T ++ Deed.owing k [(c, .panicked)]) (R ++ Reply.to k (told reply o))
      { A with strands := rest } := by
  refine h.gone (B := { A with strands := rest }) hA rfl rfl ?_ (fun _ => .inl rfl)
    fun hc => hc.isOver.elim
  intro hs
  exact ⟨told_of_ne (fun heq => hs (.inr heq)) _, rfl, rfl⟩

variable {S : Standard} {ts : List (CompletionId × Option Reply)} {dss : List (Chain × Deed)}

/-- **Each step of an account keeps a promise.** -/
theorem step (h : Promise k T R A) (hstep : Step S A dss ts B) :
    Promise k (T ++ Deed.owing k dss) (R ++ Reply.to k ts) B := by
  have nothing : Deed.owing k [] = [] := rfl
  have silent : Reply.to k [] = [] := rfl
  cases hstep with
  | number hn =>
    rw [nothing, silent, List.append_nil, List.append_nil]
    exact h.mono rfl rfl rfl hn
  | go hA hd hgo hc hφ =>
    rw [silent, List.append_nil]
    exact h.go hA hgo hc rfl rfl rfl rfl
  | settle hA hd =>
    rw [silent, List.append_nil]
    exact h.settle hA rfl rfl rfl rfl
  | suspend hA hd =>
    rw [silent, List.append_nil]
    exact h.suspend hA rfl rfl rfl rfl
  | stop hA =>
    rw [silent, List.append_nil]
    exact h.stop hA
  | haltCall hA ho => exact h.haltCall hA ho
  | haltContinuation hA =>
    rw [silent, List.append_nil]
    exact h.haltContinuation hA
  | panic hA => exact h.panic _ hA
  | lose hA => exact h.lose hA
  | drop hA =>
    rw [silent, List.append_nil]
    exact h.drop hA
  | forget hA =>
    rw [nothing, List.append_nil]
    exact h.tell hA (.inl rfl) rfl rfl rfl rfl
  | tell hA hv =>
    rw [nothing, List.append_nil]
    exact h.tell hA (.inr ⟨_, rfl, .inl hv⟩) rfl rfl rfl rfl
  | tellBroken hA hv hR =>
    rw [nothing, List.append_nil]
    exact h.tell hA (.inr ⟨_, rfl, .inr ⟨hv, rfl, hR⟩⟩) rfl rfl rfl rfl

theorem steps (h : Promise k T R A) (hsteps : Steps S A dss ts B) :
    Promise k (T ++ Deed.owing k dss) (R ++ Reply.to k ts) B :=
  hsteps.keeps_told step h

/-- When a run starts, a promise is made that has not been made before. -/
theorem starts (h : Promise k T R A) (hstarts : Starts S A dss B) :
    Promise k (T ++ Deed.owing k dss) R B := by
  cases hstarts with
  | @start q r c i hq hd hi hc =>
    by_cases howner : c.completion = some k
    · -- The completion is a fresh one.
      have hk : k = ⟨A.next⟩ := by
        obtain hnone | hfresh := hc
        · rw [hnone] at howner
          cases howner
        · exact Option.some.inj (howner.symm.trans hfresh)
      have hge : ¬ k.number < A.next := by
        rw [hk]
        exact Nat.lt_irrefl _
      rw [Deed.owing_singleton_of_eq howner]
      cases h with
      | unmade hT hR hp hw hs =>
        subst hT
        have hparties : (Account.parties { A with
            strands := ⟨.call r c.completion, c, .entering i⟩ ::ₘ A.strands
            next := A.next + 1 } k) = {⟨.call r c.completion, c, .entering i⟩} := by
          rw [parties_of_pos rfl (.inl howner), ← parties, hp]
          rfl
        refine .owed hparties ⟨howner, .inl ⟨⟨r, congrArg _ howner⟩, hw, hR⟩, hs, ?_, ?_, i, i, ?_⟩
        · rw [hk]
          exact Nat.lt_succ_self _
        · intro x hx
          rw [List.nil_append, List.mem_singleton] at hx
          rw [hx]
          rfl
        · exact ⟨_, i, [], (List.append_nil _).symm, .start, .entering⟩
      | owed hp ho => exact absurd ho.lt_next hge
      | closing hp hc hR => exact absurd hc.lt_next hge
      | decided hp hd hn => exact absurd hn hge
      | panicked h => exact .panicked (List.mem_append_left _ h)
    · rw [Deed.owing_singleton_of_ne howner, List.append_nil]
      refine h.mono ?_ rfl rfl (Nat.le_succ _)
      exact parties_of_neg rfl (by rintro (heq | heq) <;> exact howner heq)

/-- **Whatever happens, a promise is kept.** -/
theorem passes (h : Promise k T R A) (hpasses : Passes S A dss ts B) :
    Promise k (T ++ Deed.owing k dss) (R ++ Reply.to k ts) B := by
  cases hpasses with
  | start hstarts hts =>
    subst hts
    have silent : Reply.to k [] = [] := rfl
    rw [silent, List.append_nil]
    exact h.starts hstarts
  | steps hsteps => exact h.steps hsteps

end Promise

end Account

end DurableFlow
