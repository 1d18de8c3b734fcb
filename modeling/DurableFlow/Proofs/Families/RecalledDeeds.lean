import DurableFlow.Proofs.Families.Descendants
import DurableFlow.Proofs.Settlement.Promises

/-!
# Deeds that are recalled

Wherever a chain goes, into a nested run, into a timer or into the task that goes on after a delay,
what it has done since it started is among the deeds of its family, in their order. Main statement:
`Engine.IsNew.remembers`.
-/

namespace DurableFlow

/-- A chain that does not settle by what it does owes what it owed before. -/
theorem Goes.completion_cases {p p' : Nat} {c c' : Chain} {φ φ' : Phase} {ds : List Deed}
    (h : Goes p c φ ds p' c' φ') : c'.completion = c.completion ∨ ∃ v, .settled v ∈ ds := by
  cases h with
  | settle => exact .inr ⟨_, List.mem_singleton_self _⟩
  | _ => exact .inl rfl

namespace Chain

/-- A chain may go on as another one: of the same definition and dispatcher, and of the same
instance unless a step hands back the context of another one. -/
structure GoesOnAs (c c' : Chain) : Prop where
  definition : c'.definition = c.definition
  dispatcher : c'.dispatcher = c.dispatcher
  inst : c.definition.IsLoyal → c'.inst = c.inst

theorem GoesOnAs.refl (c : Chain) : c.GoesOnAs c := ⟨rfl, rfl, fun _ => rfl⟩

theorem GoesOnAs.trans {c c' c'' : Chain} (h : c.GoesOnAs c') (h' : c'.GoesOnAs c'') :
    c.GoesOnAs c'' where
  definition := h'.definition.trans h.definition
  dispatcher := h'.dispatcher.trans h.dispatcher
  inst hloyal := (h'.inst (h.definition ▸ hloyal)).trans (h.inst hloyal)

end Chain

theorem Goes.goesOnAs {p p' : Nat} {c c' : Chain} {φ φ' : Phase} {ds : List Deed}
    (h : Goes p c φ ds p' c' φ') : c.GoesOnAs c' where
  definition := h.definition_eq
  dispatcher := by cases h <;> rfl
  inst := h.inst_eq

namespace Strand

/-- Some of the deeds are those that the chain has done since it started; whoever waits for the
chain within its task is owed an answer, or has been given one. -/
def Remembers (l : List (Chain × Deed)) (s : Strand) : Prop :=
  ∃ L : List (Chain × Deed), L.Sublist l ∧ (∀ x ∈ L, x.1.GoesOnAs s.chain) ∧
    (∃ p₀ p, Recalls s.chain.definition p₀ (L.map Prod.snd) s.chain s.phase p) ∧
    ∀ k, s.origin.receiver? = some k →
      (s.chain.completion = some k ∧ ∀ x ∈ L, x.2.isFinal = false) ∨
        ∃ c v, (c, .settled v) ∈ L ∧ c.completion = some k

namespace Remembers

variable {l : List (Chain × Deed)} {o o' : Origin} {c c' : Chain} {φ φ' : Phase}

theorem sublist {s : Strand} (h : s.Remembers l) {l' : List (Chain × Deed)} (hl : l.Sublist l') :
    s.Remembers l' := by
  obtain ⟨L, hL, hsame, hrecalls, howes⟩ := h
  exact ⟨L, hL.trans hl, hsame, hrecalls, howes⟩

theorem mono {s : Strand} (h : s.Remembers l) (l' : List (Chain × Deed)) :
    s.Remembers (l ++ l') :=
  h.sublist (List.sublist_append_left _ _)

/-- Whatever a chain does, it remembers. -/
theorem goes {p p' : Nat} {ds : List Deed} (h : Remembers l ⟨o, c, φ⟩) (o' : Origin)
    (hgo : Goes p c φ ds p' c' φ') (ho : ∀ k, o'.receiver? = some k → o.receiver? = some k) :
    Remembers (l ++ ds.map (c, ·)) ⟨o', c', φ'⟩ := by
  obtain ⟨L, hL, hsame, ⟨p₀, q, hrecalls⟩, howes⟩ := h
  obtain ⟨q', hgo'⟩ := hgo.anywhere q
  have hds : (ds.map (c, ·)).map Prod.snd = ds := (List.map_map ..).trans (List.map_id ds)
  refine ⟨L ++ ds.map (c, ·), hL.append (List.Sublist.refl _), ?_, ⟨p₀, q', ?_⟩, fun k hk => ?_⟩
  · intro x hx
    rcases List.mem_append.1 hx with hx | hx
    · exact (hsame x hx).trans hgo.goesOnAs
    · obtain ⟨d, -, rfl⟩ := List.mem_map.1 hx
      exact hgo.goesOnAs
  · show Recalls c'.definition _ _ _ _ _
    rw [hgo.definition_eq, List.map_append, hds]
    exact hrecalls.goes rfl hgo'
  · obtain ⟨howed, hfinal⟩ | ⟨c₀, v, hv, hc₀⟩ := howes k (ho k hk)
    · obtain hcompletion | ⟨v, hv⟩ := hgo.completion_cases
      · refine .inl ⟨hcompletion.trans howed, fun x hx => ?_⟩
        rcases List.mem_append.1 hx with hx | hx
        · exact hfinal x hx
        · obtain ⟨d, hd, rfl⟩ := List.mem_map.1 hx
          exact hgo.not_final (hcompletion.trans howed) d hd
      · exact .inr ⟨c, v, List.mem_append_right _ (List.mem_map_of_mem hv), howed⟩
    · exact .inr ⟨c₀, v, List.mem_append_left _ hv, hc₀⟩

/-- A chain that starts remembers that it does. -/
theorem started (l : List (Chain × Deed)) (r : RunnerId) (c : Chain) (i : Nat) :
    Remembers (l ++ [(c, .started i)]) ⟨.call r c.completion, c, .entering i⟩ := by
  refine ⟨[(c, .started i)], List.sublist_append_right _ _, ?_, ⟨i, i, ?_⟩,
    fun k hk => .inl ⟨hk, ?_⟩⟩
  · intro x hx
    rw [List.mem_singleton.1 hx]
    exact .refl c
  · exact ⟨[.started i], i, [], rfl, .start, .entering⟩
  · intro x hx
    rw [List.mem_singleton.1 hx]
    rfl

end Remembers

end Strand

namespace Frame

/-- The strands below a call go on with its end in the phases in which they are. -/
theorem strands_resumed (reply : Reply) (below : List Frame) :
    (resumed reply below).filterMap strand? = [] ∨
      (resumed reply below).filterMap strand? = below.filterMap strand? := by
  unfold resumed
  split
  · exact .inr rfl
  · exact .inl rfl

theorem strands_departed (o : Origin) (reply : Reply) (below : List Frame) :
    (departed o reply below).filterMap strand? = [] ∨
      (departed o reply below).filterMap strand? = below.filterMap strand? := by
  unfold departed
  split
  · exact .inr rfl
  · exact strands_resumed reply below

end Frame

/-- All chains of a member remember. -/
def Member.Remembers (l : List (Chain × Deed)) (m : Member) : Prop :=
  ∀ s ∈ m.strands, s.Remembers l

namespace Engine

variable {e : Engine} {t : Task} {l ds : List (Chain × Deed)} {rested : Option (Timer Continuation)}
  {frames : List Frame}

/-- **What holds of the strands of a task is handed on by a turn**, if whatever a chain can do hands
it on, also to a chain that is laid to rest, and if it holds of a chain that starts. -/
theorem Turns.strands {P Q : Strand → Prop} (h : e.Turns t ds rested frames)
    (ht : ∀ s ∈ (Member.task t).strands, P s) (hmono : ∀ s, P s → Q s)
    (hgo : ∀ {o o' c φ p ds' p' c' φ'}, P ⟨o, c, φ⟩ → Goes p c φ ds' p' c' φ' →
      (ds'.map (c, ·)).Sublist ds → (∀ k, o'.receiver? = some k → o.receiver? = some k) →
        Q ⟨o', c', φ'⟩)
    (hstart : ∀ r c i, (c, .started i) ∈ ds →
      c.completion = none ∨ c.completion = some ⟨e.next⟩ → Q ⟨.call r c.completion, c, .entering i⟩) :
    (∀ s ∈ frames.filterMap Frame.strand?, Q s) ∧ ∀ x ∈ rested, Q x.strand := by
  have below : ∀ {f : Frame} {below fs : List Frame}, t.frames = f :: below →
      fs.filterMap Frame.strand? = [] ∨
        fs.filterMap Frame.strand? = below.filterMap Frame.strand? →
      ∀ s ∈ fs.filterMap Frame.strand?, Q s := by
    rintro f below fs hf (hnone | hsame) s hs
    · rw [hnone] at hs
      cases hs
    · rw [hsame] at hs
      refine hmono s (ht s ?_)
      show s ∈ t.frames.filterMap Frame.strand?
      rw [hf, show f :: below = [f] ++ below from rfl, List.filterMap_append]
      exact List.mem_append_right _ hs
  have top : ∀ {o c stage below}, t.frames = .driving o c stage :: below →
      P ⟨o, c, stage.phase⟩ := by
    intro o c stage below hf
    refine ht _ ?_
    show _ ∈ t.frames.filterMap Frame.strand?
    rw [hf]
    exact List.mem_cons_self
  have cons : ∀ {o c stage fs}, Q ⟨o, c, stage.phase⟩ →
      (∀ s ∈ fs.filterMap Frame.strand?, Q s) →
      ∀ s ∈ (Frame.driving o c stage :: fs).filterMap Frame.strand?, Q s := by
    intro o c stage fs hs hfs s hmem
    rcases List.mem_cons.1 hmem with rfl | hmem
    · exact hs
    · exact hfs s hmem
  cases h with
  | look _ => exact ⟨fun s hs => hmono s (ht s hs), nofun⟩
  | @abandon fs o c stage hframes hs hp hc =>
    refine ⟨cons ?_ (by simp), nofun⟩
    have hlast : P ⟨o, c, stage.phase⟩ := by
      refine ht _ ?_
      show _ ∈ t.frames.filterMap Frame.strand?
      rw [hframes, List.filterMap_append]
      exact List.mem_append_right _ List.mem_cons_self
    obtain ⟨i, hphase⟩ : ∃ i, stage.phase = .within i := by
      cases stage with
      | inside i b => exact ⟨i, rfl⟩
      | calling i next => exact ⟨i, rfl⟩
      | _ => cases hs
    rw [hphase] at hlast
    exact hgo (p := 0) hlast .abort (List.nil_sublist _) fun _ hk => hk
  | decline hf => exact ⟨below hf (Frame.strands_resumed _ _), nofun⟩
  | start hf hc hcontext =>
    exact ⟨cons (hstart _ _ _ (List.mem_singleton_self _) hc) (below hf (.inr rfl)), nofun⟩
  | stay hf hb =>
    have hs := hmono _ (top hf)
    exact ⟨cons hs (below hf (.inr rfl)), nofun⟩
  | @launch o c i context r q next rest hf =>
    refine ⟨?_, nofun⟩
    show ∀ s ∈ (Frame.driving o c (.calling i next) :: rest).filterMap Frame.strand?, _
    have hs := hmono _ (top hf)
    exact cons hs (below hf (.inr rfl))
  | @go o c stage rest d p p' c' stage' hf _ hd hcontext hgoes =>
    have hlist : d.toList.map (c, ·) = (d.map (c, ·)).toList := by cases d <;> rfl
    refine ⟨cons ?_ (below hf (.inr rfl)), nofun⟩
    exact hgo (top hf) hgoes (hlist ▸ List.Sublist.refl _) fun _ hk => hk
  | rest hf =>
    refine ⟨below hf (Frame.strands_departed _ _ _), ?_⟩
    rintro _ ⟨⟩
    exact hgo (p := 0) (top hf) .suspend (List.Sublist.refl _) nofun
  | stop hf => exact ⟨below hf (Frame.strands_departed _ _ _), nofun⟩
  | halt hf => exact ⟨below hf (Frame.strands_resumed _ _), nofun⟩
  | panic hf => exact ⟨below hf (Frame.strands_resumed _ _), nofun⟩
  | receive hf => exact ⟨below hf (Frame.strands_resumed _ _), nofun⟩

/-- A turn leaves chains behind that remember. -/
theorem Turns.remembers (h : e.Turns t ds rested frames) (ht : (Member.task t).Remembers l) :
    (∀ s ∈ frames.filterMap Frame.strand?, s.Remembers (l ++ ds)) ∧
      ∀ x ∈ rested, x.strand.Remembers (l ++ ds) := by
  refine h.strands ht (fun s hs => hs.mono ds) ?_ ?_
  · intro o o' c φ p ds' p' c' φ' hs hgoes hds ho
    exact (hs.goes o' hgoes ho).sublist ((List.Sublist.refl l).append hds)
  · intro r c i hstarted _
    exact (Strand.Remembers.started l r c i).sublist
      ((List.Sublist.refl l).append (List.singleton_sublist.2 hstarted))

/-- What a member has to do with is of definitions that the standard admits. -/
theorem Sound.definition_of_strand {S : Standard} (h : e.Sound S) {m : Member} (hm : m ∈ e.members)
    {s : Strand} (hs : s ∈ m.strands) : S.definition s.chain.definition := by
  cases m with
  | task t =>
    obtain ⟨f, hf, hstrand⟩ := List.mem_filterMap.1 hs
    have hsound := (h.tasks t (mem_tasks_of_members hm)).frames f hf
    cases f with
    | driving o c stage =>
      cases hstrand
      exact hsound.1
    | _ => cases hstrand
  | timer x =>
    rw [List.mem_singleton.1 hs]
    exact h.armed x (mem_armed_of_members hm)

section

variable {S : Standard} {a : Act} {as : List Act} {own : Nat → Bool} {P : Strand → Prop}

/-- What holds of the strands of a family is handed on by an act, if whatever a chain can do hands
it on, and if it holds of a chain that starts. -/
theorem Sound.hands_on_strands (h : e.Sound S) (ha : a.Meets S) (hmarked : e.IsMarked)
    (hinherits : e.Inherits own a)
    (hbefore : ∀ m ∈ e.members, own m.number = true → ∀ s ∈ m.strands, P s)
    (hgo : ∀ {o o' c φ p ds p' c' φ'}, S.definition c.definition → P ⟨o, c, φ⟩ →
      Goes p c φ ds p' c' φ' → (∀ k, o'.receiver? = some k → o.receiver? = some k) →
        P ⟨o', c', φ'⟩)
    (hstart : ∀ r c i, (c, .started i) ∈ e.deeds a →
      c.completion = none ∨ c.completion = some ⟨e.next⟩ → P ⟨.call r c.completion, c, .entering i⟩) :
    ∀ m ∈ (e.act a).members, own m.number = true → ∀ s ∈ m.strands, P s := by
  have hgo' : ∀ {o o' c φ p ds p' c' φ'}, (S.definition c.definition → P ⟨o, c, φ⟩) →
      Goes p c φ ds p' c' φ' → (∀ k, o'.receiver? = some k → o.receiver? = some k) →
        S.definition c'.definition → P ⟨o', c', φ'⟩ := by
    intro o o' c φ p ds p' c' φ' hs hgoes ho hdefinition
    rw [hgoes.definition_eq] at hdefinition
    exact hgo hdefinition (hs hdefinition) hgoes ho
  have hhanded := h.hands_on hmarked hinherits
    (P := fun m => ∀ s ∈ m.strands, S.definition s.chain.definition → P s)
    (fun m hm hmown s hs _ => hbefore m hm hmown s hs) ?_ ?_ ?_
  · exact fun m hm hmown s hs =>
      hhanded m hm hmown s hs ((h.act ha).1.definition_of_strand hm hs)
  · intro t rested left _ ht htown hyields
    have hstrands := hyields.turns.strands (P := fun s => S.definition s.chain.definition → P s)
      (Q := fun s => S.definition s.chain.definition → P s)
      (fun s hs _ => hbefore _ ht htown s hs) (fun _ hs => hs)
      (fun hs hgoes _ ho => hgo' hs hgoes ho) (fun r c i hd hc _ => hstart r c i hd hc)
    refine ⟨?_, fun x hx s hs => ?_⟩
    · rintro t' rfl
      exact hstrands.1
    · rw [List.mem_singleton.1 hs]
      exact hstrands.2 x hx
  · intro token f ha' _ s hs
    cases a with
    | run => cases ha'; cases hs
    | resume => cases ha'; cases hs
    | _ => cases ha'
  · intro x n _ hx s hs
    rw [List.mem_singleton.1 hs]
    exact hgo' (p := 0) (hx x.strand (List.mem_singleton_self _)) .wake fun _ hk => hk

/-- **What holds of the strands of a family remains true in the course of a history.** -/
theorem Sound.strands_after (h : e.Sound S) (hS : ∀ a ∈ as, a.Meets S) (hmarked : e.IsMarked)
    (hown : e.IsHereditary own as)
    (hbefore : ∀ m ∈ e.members, own m.number = true → ∀ s ∈ m.strands, P s)
    (hgo : ∀ {o o' c φ p ds p' c' φ'}, S.definition c.definition → P ⟨o, c, φ⟩ →
      Goes p c φ ds p' c' φ' → (∀ k, o'.receiver? = some k → o.receiver? = some k) →
        P ⟨o', c', φ'⟩)
    (hstart : ∀ before a after, as = before ++ a :: after →
      ∀ r c i, (c, .started i) ∈ (e.after before).deeds a →
        c.completion = none ∨ c.completion = some ⟨(e.after before).next⟩ →
          P ⟨.call r c.completion, c, .entering i⟩) :
    ∀ m ∈ (e.after as).members, own m.number = true → ∀ s ∈ m.strands, P s := by
  induction as generalizing e with
  | nil => exact hbefore
  | cons a as ih =>
    have ha := hS a List.mem_cons_self
    have hnext := h.hands_on_strands ha hmarked (hown [] a as rfl) hbefore hgo
      (hstart [] a as rfl)
    refine ih (h.act ha).1 (fun b hb => hS b (List.mem_cons_of_mem _ hb))
      (h.isMarked_act hmarked a) ?_ hnext ?_
    · rintro before b after rfl
      exact hown (a :: before) b after rfl
    · rintro before b after rfl
      exact hstart (a :: before) b after rfl

end

theorem handed_remembers : Handed Member.Remembers where
  mono h l' s hs := (h s hs).mono l'
  left h ht := by
    rintro t' rfl
    exact (h.turns.remembers ht).1
  rested h ht x hx := by
    intro s hs
    rw [List.mem_singleton.1 hs]
    exact (h.turns.remembers ht).2 x hx
  woken {l x} h n := by
    intro s hs
    have hstrand : s = ⟨.continuation, x.work.chain, .entering x.work.next⟩ :=
      List.mem_singleton.1 hs
    have hwoken := (h x.strand (List.mem_singleton_self _)).goes .continuation (p := 0)
      .wake fun _ hk => hk
    rw [hstrand]
    simpa using hwoken

/-- **The chains of a family remember what they have done.** -/
theorem IsNew.remembers (h : e.IsNew) {own : Nat → Bool} {as : List Act}
    (hown : e.IsHereditary own as) :
    ∀ m ∈ (e.after as).members, own m.number = true → m.Remembers (e.doings own as) := by
  refine handed_remembers.after h hown ?_
  rintro before a after token f - ha - s hs
  cases a with
  | run => cases ha; cases hs
  | resume => cases ha; cases hs
  | _ => cases ha

end Engine

end DurableFlow
