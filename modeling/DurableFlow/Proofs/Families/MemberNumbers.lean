import DurableFlow.Proofs.Families.Descendants

/-!
# Numbers of members

The numbers that a member of a family goes by belong to the family: those of the tokens that it is
under, if the tasks of the family are started under such, and those of the completions that it owes
or waits for. Members, moreover, have numbers of their own.

Main statements: `Engine.IsNew.isKin`, `Engine.IsNew.nodup_numbers`.
-/

namespace DurableFlow

/-- Whether all numbers of a token belong to a family. -/
def Token.isOwn (own : Nat → Bool) (τ : Token) : Bool := τ.path.all own

/-- The completions that a frame owes, or waits for on behalf of a call. -/
def Frame.completions (f : Frame) : List CompletionId := f.owed?.toList ++ f.receiver?.toList

namespace Member

/-- The completions that a member owes or waits for. -/
def completions : Member → List CompletionId
  | task t => t.frames.flatMap Frame.completions
  | timer x => x.work.chain.completion.toList

/-- The numbers that a member goes by belong to its family. -/
structure IsKin (own : Nat → Bool) (m : Member) : Prop where
  token : own m.number = true → m.token.isOwn own = true
  completions : ∀ k ∈ m.completions, own k.number = own m.number

theorem IsMarked.number_lt {m : Member} {n : Nat} (h : m.IsMarked n) : m.number < n := by
  cases m with
  | task t => exact h
  | timer x => exact h.2

end Member

namespace Token

variable {own : Nat → Bool} {τ σ : Token}

@[simp] theorem isOwn_child (own : Nat → Bool) (τ : Token) (k : Nat) :
    (τ.child k).isOwn own = (own k && τ.isOwn own) := rfl

/-- What a token of a family descends from are tokens of the family. -/
theorem isOwn_of_isWithin (h : τ.isWithin σ = true) (hτ : τ.isOwn own = true) :
    σ.isOwn own = true := by
  have hsuffix : σ.path <:+ τ.path := List.isSuffixOf_iff_suffix.1 h
  exact List.all_eq_true.2 fun k hk => List.all_eq_true.1 hτ k (hsuffix.subset hk)

end Token

theorem Goes.completion_le {p p' : Nat} {c c' : Chain} {φ φ' : Phase} {ds : List Deed}
    (h : Goes p c φ ds p' c' φ') :
    ∀ k, c'.completion = some k → c.completion = some k := by
  intro k hk
  cases h with
  | settle => cases hk
  | _ => exact hk

namespace Frame

theorem mem_completions_driving {o : Origin} {c : Chain} {stage : Stage} {k : CompletionId} :
    k ∈ (driving o c stage).completions ↔ c.completion = some k ∨ o.receiver? = some k := by
  simp [completions, owed?, receiver?]

theorem completions_resumed (reply : Reply) (below : List Frame) :
    (resumed reply below).flatMap completions ⊆ below.flatMap completions := by
  unfold resumed
  split
  · exact List.Subset.refl _
  · exact List.nil_subset _

theorem completions_departed (o : Origin) (c : Chain) (stage : Stage) (reply : Reply)
    (below : List Frame) :
    (departed o reply below).flatMap completions ⊆
      (driving o c stage :: below).flatMap completions := by
  have hbelow : below.flatMap completions ⊆ (driving o c stage :: below).flatMap completions :=
    List.subset_append_right _ _
  unfold departed
  split
  · rename_i r k
    intro k' hk'
    rcases List.mem_append.1 hk' with hk' | hk'
    · have heq : k' = k := by simpa [completions, owed?, receiver?] using hk'
      refine List.mem_append_left _ (mem_completions_driving.2 (.inr ?_))
      rw [heq]
      rfl
    · exact hbelow hk'
  · exact List.Subset.trans (completions_resumed reply below) hbelow

end Frame

namespace Engine

variable {S : Standard} {e : Engine} {t : Task} {a : Act} {own : Nat → Bool}
  {ds : List (Chain × Deed)} {rested : Option (Timer Continuation)} {frames : List Frame}

/-- After a turn the completions are those from before, and that of a chain that starts. -/
theorem Turns.completions (h : e.Turns t ds rested frames) :
    (∀ k ∈ frames.flatMap Frame.completions, k ∈ t.frames.flatMap Frame.completions ∨
      k = ⟨e.next⟩ ∧ ∃ c i, c.completion = some k ∧ (c, .started i) ∈ ds) ∧
    ∀ x ∈ rested, ∀ k ∈ x.work.chain.completion, k ∈ t.frames.flatMap Frame.completions := by
  have below : ∀ {f : Frame} {below fs : List Frame}, t.frames = f :: below →
      fs.flatMap Frame.completions ⊆ below.flatMap Frame.completions →
      ∀ k ∈ fs.flatMap Frame.completions, k ∈ t.frames.flatMap Frame.completions ∨
        k = ⟨e.next⟩ ∧ ∃ c i, c.completion = some k ∧ (c, .started i) ∈ ds := by
    intro f below fs hf hsub k hk
    refine .inl ?_
    rw [hf]
    exact List.mem_append_right _ (hsub hk)
  have cons : ∀ {o c stage o' c' stage' below}, t.frames = .driving o c stage :: below →
      o' = o → (∀ k, c'.completion = some k → c.completion = some k) →
      ∀ k ∈ (Frame.driving o' c' stage' :: below).flatMap Frame.completions,
        k ∈ t.frames.flatMap Frame.completions ∨
          k = ⟨e.next⟩ ∧ ∃ c i, c.completion = some k ∧ (c, .started i) ∈ ds := by
    rintro o c stage o' c' stage' below hf rfl hc k hk
    refine .inl ?_
    rw [hf]
    rcases List.mem_append.1 hk with hk | hk
    · refine List.mem_append_left _ (Frame.mem_completions_driving.2 ?_)
      exact (Frame.mem_completions_driving.1 hk).imp_left (hc k)
    · exact List.mem_append_right _ hk
  cases h with
  | look _ => exact ⟨fun k hk => .inl hk, nofun⟩
  | @abandon fs o c stage hf hs hp hc =>
    refine ⟨fun k hk => .inl ?_, nofun⟩
    rw [hf, List.flatMap_append]
    exact List.mem_append_right _ hk
  | decline hf => exact ⟨below hf (Frame.completions_resumed _ _), nofun⟩
  | @start r q resuming rest id d inst c i hf hc hcontext =>
    refine ⟨fun k hk => ?_, nofun⟩
    rcases List.mem_append.1 hk with hk | hk
    · have hk : c.completion = some k := by
        simpa [Origin.receiver?] using Frame.mem_completions_driving.1 hk
      rcases hc with hnone | hsome
      · cases hnone.symm.trans hk
      · exact .inr ⟨Option.some.inj (hk.symm.trans hsome), c, i, hk, List.mem_singleton_self _⟩
    · exact below hf (List.Subset.refl _) k hk
  | stay hf hb => exact ⟨cons hf rfl fun _ hk => hk, nofun⟩
  | @launch o c i context r q next rest hf =>
    refine ⟨?_, nofun⟩
    show ∀ k ∈ (Frame.driving o c (.calling i next) :: rest).flatMap Frame.completions, _
    exact cons hf rfl fun _ hk => hk
  | go hf _ hd hcontext hgo => exact ⟨cons hf rfl hgo.completion_le, nofun⟩
  | @rest o c next due rest reply hf =>
    refine ⟨fun k hk => .inl ?_, ?_⟩
    · rw [hf]
      exact Frame.completions_departed o c _ reply rest hk
    · rintro _ ⟨⟩ k hk
      rw [hf]
      exact List.mem_append_left _ (Frame.mem_completions_driving.2 (.inl hk))
  | @stop o c result rest hf =>
    refine ⟨fun k hk => .inl ?_, nofun⟩
    rw [hf]
    exact Frame.completions_departed o c _ _ rest hk
  | halt hf => exact ⟨below hf (Frame.completions_resumed _ _), nofun⟩
  | panic hf => exact ⟨below hf (Frame.completions_resumed _ _), nofun⟩
  | receive hf => exact ⟨below hf (Frame.completions_resumed _ _), nofun⟩

theorem deed?_ne_started (e : Engine) (τ : Token) (c : Chain) (stage : Stage) (i : Nat) :
    e.deed? τ c stage ≠ some (.started i) := by
  unfold deed?
  grind

/-- A chain that starts draws a number. -/
theorem next_lt_of_started {n : Nat} {c : Chain} {i : Nat}
    (h : (c, .started i) ∈ e.deeds (.advance n)) : e.next < (e.act (.advance n)).next := by
  simp only [deeds] at h
  split at h
  · rename_i t ht
    unfold deedsOf at h
    split at h
    · split at h
      · obtain ⟨_, -, heq⟩ := List.mem_map.1 h
        cases heq
      · cases h
    · rename_i hp
      have hp : t.parked = false := by simpa using hp
      split at h
      · rename_i r q resuming below hframes
        have hmove : e.move t = e.moveOpening t below r q resuming :=
          move_opening hp hframes
        have hstarted : (c, .started i) ∈ (e.move t).started := by
          simpa [move, hp] using h
        have hopens := e.opens_moveOpening t below r q resuming
        rw [← hmove] at hopens
        simp only [Engine.act, Engine.advance, ht]
        generalize e.move t = m at hopens hstarted ⊢
        cases hopens with
        | unknown _ => simp [refuse, started_answer] at hstarted
        | answers journal reply => simp [started_answer] at hstarted
        | starts journal => exact Nat.lt_succ_self e.next
      · obtain ⟨d, hd, heq⟩ := Option.map_eq_some_iff.1 (Option.mem_toList.1 h)
        cases heq
        exact absurd hd (deed?_ne_started e _ _ _ _)
      · cases h
  · cases h

/-! ## Kin -/

/-- What is left of a task is kin. -/
theorem Yields.isKin_left {left : Option Task} (h : e.Yields t ds rested left)
    (ht : (Member.task t).IsKin own)
    (hstarted : (∃ c i, (c, .started i) ∈ ds) → own e.next = own t.number) :
    ∀ t' ∈ left, (Member.task t').IsKin own := by
  rintro t' rfl
  have hnumber : t'.number = t.number := h.number t' rfl
  refine ⟨fun hown => ?_, fun k hk => ?_⟩
  · show t'.token.isOwn own = true
    rw [h.token t' rfl]
    exact ht.token ((congrArg own hnumber).symm.trans hown)
  · show own k.number = own t'.number
    rw [hnumber]
    rcases h.turns.completions.1 k hk with hk | ⟨rfl, c, i, -, hnew⟩
    · exact ht.completions k hk
    · exact hstarted ⟨c, i, hnew⟩

/-- A chain that is laid to rest is kin. -/
theorem Yields.isKin_rested {left : Option Task} (h : e.Yields t ds rested left)
    (ht : (Member.task t).IsKin own) (hnext : own e.next = own t.number) :
    ∀ x ∈ rested, (Member.timer x).IsKin own := by
  intro x hx
  obtain ⟨htoken, hdelay⟩ := h.turns.of_rested x hx
  have hnumber : own x.work.delay = own t.number := by rw [hdelay, hnext]
  refine ⟨fun hown => ?_, fun k hk => ?_⟩
  · show x.token.isOwn own = true
    have hown : own t.number = true := hnumber.symm.trans hown
    rw [htoken, Token.isOwn_child, hnext, hown]
    exact ht.token hown
  · show own k.number = own x.work.delay
    rw [hnumber]
    exact ht.completions k (h.turns.completions.2 x hx k (Option.mem_toList.1 hk))

/-- All members stay kin, if what is started is. -/
theorem Passage.isKin {M R : Multiset Member} {woken : Option (Timer Continuation)}
    (h : e.Passage a M R woken) (hmarked : e.IsMarked) (hinherits : e.Inherits own a)
    (hkin : ∀ m ∈ e.members, m.IsKin own)
    (hopening : ∀ token f, a.opening? = some (token, f) → own e.next = true →
      token.isOwn own = true) :
    ∀ m ∈ (e.act a).members, m.IsKin own := by
  have haltered : ∀ m ∈ M, m.IsKin own := by
    have hstarted : ∀ {n c i}, a = .advance n → (c, .started i) ∈ e.deeds a →
        own e.next = own n := by
      rintro n c i rfl hd
      exact hinherits.drawn n rfl (next_lt_of_started hd)
    intro m hm
    cases h.alters.comes m hm with
    | keep hm => exact hkin m hm
    | @left t _ _ t' ht ha hyields ht' =>
      exact (hyields.isKin_left (hkin _ ht) fun ⟨_, _, hd⟩ => hstarted ha hd) t' ht'
    | @rested t _ _ x ht ha hyields hdrawn hx =>
      exact hyields.isKin_rested (hkin _ ht) (hinherits.drawn _ ha hdrawn) x hx
    | @start token f ha _ =>
      refine ⟨hopening token f ha, ?_⟩
      cases a with
      | run => cases ha; exact nofun
      | resume => cases ha; exact nofun
      | _ => cases ha
  intro m hm
  obtain ⟨x, hx, rfl⟩ | hm := h.mem_cases hm
  · have hxkin := haltered _ (h.mem_of_woken hx)
    have hown : own ((e.act a).next - 1) = own x.work.delay := by
      rw [← (h.delay_lt hmarked hx).1]
      exact hinherits.woken (x.task _) (by rw [h.woken?_eq hmarked, hx]; rfl)
    refine ⟨fun hmem => hxkin.token (hown.symm.trans hmem), fun k hk => ?_⟩
    refine (hxkin.completions k ?_).trans hown.symm
    simpa [Member.completions, Timer.task, Frame.completions, Frame.owed?, Frame.receiver?,
      Origin.receiver?] using hk
  · exact haltered m (h.mem_of_mem_rest hm)

/-- **The numbers that a member goes by belong to its family**, if the tasks of the family are
started under tokens that do. -/
theorem IsNew.isKin (h : e.IsNew) {as : List Act} (hown : e.IsHereditary own as)
    (htokens : ∀ before a after token f, as = before ++ a :: after →
      a.opening? = some (token, f) → own (e.after before).next = true → token.isOwn own = true) :
    ∀ m ∈ (e.after as).members, m.IsKin own := by
  induction as using List.reverseRecOn with
  | nil => exact fun m hm => absurd hm (h.not_mem_members m)
  | append_singleton as a ih =>
    have ih := ih hown.left fun before b after token f has =>
      htokens before b (after ++ [a]) token f (by simp [has])
    obtain ⟨M, R, woken, hpassage⟩ := ((h.sound .any).after_any as).passage a
    rw [after_concat]
    exact hpassage.isKin ((h.sound .any).isMarked_after h.isMarked as) (hown as a [] rfl) ih
      fun token f => htokens as a [] token f rfl

/-! ## Numbers -/

/-- What an act leaves of the members stays apart by their numbers. -/
theorem Alters.nodup_numbers {N M : Multiset Member} (h : e.Alters a ds N M)
    (hmarked : ∀ m ∈ N, m.IsMarked e.next) (hnodup : (N.map Member.number).Nodup) :
    (M.map Member.number).Nodup := by
  have hlt : ∀ k ∈ N.map Member.number, k < e.next := by
    intro k hk
    obtain ⟨m, hm, rfl⟩ := Multiset.mem_map.1 hk
    exact (hmarked m hm).number_lt
  cases h with
  | keep => exact hnodup
  | @turn t _ rested left R h hdrawn =>
    rw [Multiset.map_cons] at hnodup hlt
    -- The task keeps its number, and the chain that it lays to rest gets a new one.
    have hleft : ((Member.tasks left.toList + R).map Member.number).Nodup := by
      cases left with
      | none => simpa using (Multiset.nodup_cons.1 hnodup).2
      | some t' =>
        have hnumber : (Member.task t').number = (Member.task t).number := h.number t' rfl
        simpa [hnumber] using hnodup
    have hmem : ∀ k ∈ (Member.tasks left.toList + R).map Member.number, k < e.next := by
      intro k hk
      rw [Multiset.map_add] at hk
      rcases Multiset.mem_add.1 hk with hk | hk
      · obtain ⟨m, hm, rfl⟩ := Multiset.mem_map.1 hk
        obtain ⟨t', ht', rfl⟩ := Member.mem_tasks.1 hm
        exact hlt _ (Multiset.mem_cons.2 (.inl (h.number t' (Option.mem_toList.1 ht'))))
      · exact hlt k (Multiset.mem_cons_of_mem hk)
    rw [add_right_comm]
    cases hx : rested with
    | none => simpa using hleft
    | some x =>
      obtain ⟨-, hdelay⟩ := h.turns.of_rested x hx
      rw [Option.toList_some, Member.timers_cons, Member.timers_nil, Multiset.add_cons,
        Multiset.add_zero, Multiset.map_cons, Multiset.nodup_cons]
      refine ⟨fun hin => ?_, hleft⟩
      exact absurd (hmem _ hin) (by simp [Member.number, hdelay])
  | start ha hdrawn =>
    rw [Multiset.map_cons, Multiset.nodup_cons]
    exact ⟨fun hin => absurd (hlt _ hin) (Nat.lt_irrefl _), hnodup⟩
  | drop hx => exact (Multiset.nodup_cons.1 (Multiset.map_cons .. ▸ hnodup)).2
  | cut => exact (Multiset.nodup_cons.1 (Multiset.map_cons .. ▸ hnodup)).2

/-- Members stay apart by their numbers. -/
theorem Passage.nodup_numbers {M R : Multiset Member} {woken : Option (Timer Continuation)}
    (h : e.Passage a M R woken) (hmarked : e.IsMarked)
    (hnodup : (e.members.map Member.number).Nodup) :
    ((e.act a).members.map Member.number).Nodup := by
  have hM := h.alters.nodup_numbers hmarked hnodup
  rw [h.resting] at hM
  rw [h.members]
  cases hx : woken with
  | none => simpa [hx] using hM
  | some x =>
    have hsome := Option.isSome_of_mem hx
    have hdrawn := h.drawn hsome
    rw [hx, Option.toList_some, Member.timers_cons, Member.timers_nil, Multiset.cons_add,
      Multiset.zero_add, Multiset.map_cons, Multiset.nodup_cons] at hM
    rw [Option.toList_some, List.map_cons, List.map_nil, Member.tasks_cons, Member.tasks_nil,
      Multiset.cons_add, Multiset.zero_add, Multiset.map_cons, Multiset.nodup_cons]
    refine ⟨fun hin => ?_, hM.2⟩
    obtain ⟨m, hm, hnumber⟩ := Multiset.mem_map.1 hin
    have hnumber : m.number = (e.act a).next - 1 := hnumber
    obtain hold | ⟨-, hnew⟩ := h.alters.isMarked hmarked m (h.mem_of_mem_rest hm)
    · have hlt := hold.number_lt
      omega
    · obtain ⟨n, x', ha, rfl, hdelay⟩ := hnew (h.quiet hsome)
      have hlate := h.late hsome n ha
      have hnumber : x'.work.delay = (e.act a).next - 1 := hnumber
      omega

/-- **Members have numbers of their own.** -/
theorem IsNew.nodup_numbers (h : e.IsNew) (as : List Act) :
    ((e.after as).members.map Member.number).Nodup := by
  induction as using List.reverseRecOn with
  | nil =>
    rw [after_nil, h.members_eq]
    exact Multiset.nodup_zero
  | append_singleton as a ih =>
    obtain ⟨M, R, woken, hpassage⟩ := ((h.sound .any).after_any as).passage a
    rw [after_concat]
    exact hpassage.nodup_numbers ((h.sound .any).isMarked_after h.isMarked as) ih

end Engine

end DurableFlow
