import DurableFlow.Proofs.Cancellation.CancelledRests
import DurableFlow.Proofs.Families.RecalledDeeds
import DurableFlow.Proofs.Delays.PendingDelays
import DurableFlow.Proofs.Positions.PositionInvariant
import DurableFlow.Proofs.Runs.StoriesWithChains
import Mathlib.Data.Multiset.Bind

/-!
# Where resting chains go on

Where a chain would go on that rests. If at most one chain of an instance at a time may still go on,
a chain of it that rests under a token that is not cancelled does so at the stored position, whatever
has become of earlier chains of the instance, and even if continuations of theirs are still armed
whose tokens have been cancelled.

Main statement: `Engine.IsLone.position_of_armed`.
-/

namespace DurableFlow

/-- The position after what a chain does is the one that was saved. -/
theorem Goes.position_eq {p p' : Nat} {c c' : Chain} {φ φ' : Phase} {ds : List Deed}
    (h : Goes p c φ ds p' c' φ') : p' = Deed.position p ds := by
  cases h <;> rfl

namespace Account

variable {S : Standard} {A B : Account} {ds : List (Chain × Deed)}
  {ts : List (CompletionId × Option Reply)}

/-- **The position of an instance is the one that was saved last for a chain of it.** -/
theorem Step.position_eq (h : Step S A ds ts B) (y : String) :
    B.position y = Deed.position (A.position y) (Deed.of (fun c => c.inst == y) ds) := by
  have other : ∀ {c : Chain} (d : Deed), (∀ n, d ≠ .saved n) → ∀ p : Nat,
      Deed.position p (Deed.of (fun c => c.inst == y) [(c, d)]) = p := by
    intro c d hd p
    refine Deed.position_of_forall_ne (fun n hn => ?_) p
    obtain ⟨c', hmem, -⟩ := Deed.mem_of.1 hn
    exact hd n (Prod.mk.inj (List.mem_singleton.1 hmem)).2.symm
  cases h with
  | @go o c φ ds p c' φ' R _ _ hgo _ _ =>
    by_cases hy : c.inst = y
    · subst hy
      have hown : (c.inst == c.inst) = true := beq_self_eq_true _
      rw [Deed.of_map_of_pos (p := fun c' => c'.inst == c.inst) hown, ← hgo.position_eq]
      exact Function.update_self ..
    · have hother : (c.inst == y) = false := beq_eq_false_iff_ne.2 hy
      rw [Deed.of_map_of_neg (p := fun c' => c'.inst == y) hother]
      exact Function.update_of_ne (Ne.symm hy) _ _
  | settle => exact (other _ (by simp) _).symm
  | suspend => exact (other _ (by simp) _).symm
  | stop => exact (other _ (by simp) _).symm
  | haltCall => exact (other _ (by simp) _).symm
  | haltContinuation => exact (other _ (by simp) _).symm
  | panic => exact (other _ (by simp) _).symm
  | lose => exact (other _ (by simp) _).symm
  | drop => exact (other _ (by simp) _).symm
  | number => rfl
  | forget => rfl
  | tell => rfl
  | tellBroken => rfl

theorem Steps.position_eq (h : Steps S A ds ts B) (y : String) :
    B.position y = Deed.position (A.position y) (Deed.of (fun c => c.inst == y) ds) := by
  induction h with
  | refl => rfl
  | tail _ hstep ih => rw [hstep.position_eq y, ih, Deed.of_append, Deed.position_append]

theorem Passes.position_eq (h : Passes S A ds ts B) (y : String) :
    B.position y = Deed.position (A.position y) (Deed.of (fun c => c.inst == y) ds) := by
  cases h with
  | steps h => exact h.position_eq y
  | start h _ =>
    cases h with
    | @start q r c i _ _ _ _ =>
      refine (Deed.position_of_forall_ne (fun n hn => ?_) _).symm
      obtain ⟨c', hmem, -⟩ := Deed.mem_of.1 hn
      cases List.mem_singleton.1 hmem

/-- A chain starts at the position of its instance, and owes at most what is new. -/
theorem Passes.started {c : Chain} {i : Nat} (h : Passes .loyal A ds ts B)
    (hd : (c, .started i) ∈ ds) :
    (c.completion = none ∨ c.completion = some ⟨A.next⟩) ∧ i = A.position c.inst := by
  cases h with
  | steps h => cases h.not_started _ hd
  | start h _ =>
    cases h with
    | start hq _ hi hc =>
      cases List.mem_singleton.1 hd
      exact ⟨hc, hi hq⟩

end Account

/-- A chain that rests does so at the position that was saved for it. -/
theorem Recalls.position_of_resting {d : Definition} {p₀ p next : Nat} {T : List Deed} {c : Chain}
    (h : Recalls d p₀ T c (.resting next) p) : p = next := by
  obtain ⟨_, _, _, -, -, hround⟩ := h
  cases hround with
  | resting => rfl

/-- If a chain is one of an instance, of a loyal definition, it recalls how it came to a
position. -/
def Strand.Attains (y : String) (p : Nat) (s : Strand) : Prop :=
  s.chain.definition.IsLoyal → s.chain.inst = y →
    ∃ p₀ T, Recalls s.chain.definition p₀ T s.chain s.phase p

theorem Strand.Attains.goes {y : String} {p q p' : Nat} {o o' : Origin} {c c' : Chain}
    {φ φ' : Phase} {ds : List Deed} (h : Strand.Attains y p ⟨o, c, φ⟩)
    (hgo : Goes q c φ ds p' c' φ') : Strand.Attains y (Deed.position p ds) ⟨o', c', φ'⟩ := by
  intro hloyal hinst
  have hloyal : c.definition.IsLoyal := hgo.definition_eq ▸ hloyal
  obtain ⟨p₀, T, hrecalls⟩ := h hloyal ((hgo.inst_eq hloyal).symm.trans hinst)
  obtain ⟨p'', hgo'⟩ := hgo.anywhere p
  obtain rfl := hgo'.position_eq
  refine ⟨p₀, T ++ ds, ?_⟩
  show Recalls c'.definition _ _ _ _ _
  rw [hgo.definition_eq]
  exact hrecalls.goes rfl hgo'

namespace Engine

variable {e : Engine} {t : Task} {a : Act} {as bs : List Act} {y : String}
  {ds : List (Chain × Deed)} {rested : Option (Timer Continuation)} {frames : List Frame}

/-- A turn by which a position is saved does nothing else. -/
theorem Turns.saved_cases {c : Chain} {n : Nat} (h : e.Turns t ds rested frames)
    (hd : (c, .saved n) ∈ ds) :
    ∃ o stage stage' below p p', t.frames = .driving o c stage :: below ∧ rested = none ∧
      frames = .driving o c stage' :: below ∧ ds = [(c, .saved n)] ∧
        Goes p c stage.phase [.saved n] p' c stage'.phase := by
  cases h with
  | look _ => cases hd
  | abandon _ _ _ _ =>
    obtain ⟨_, -, heq⟩ := List.mem_map.1 hd
    cases heq
  | decline _ => cases hd
  | start _ _ _ => cases List.mem_singleton.1 hd
  | stay _ _ => cases hd
  | launch _ => cases hd
  | @go o c' stage below d p p' c'' stage' hf _ _ hcontext hgo =>
    obtain ⟨d', hd', heq⟩ := Option.map_eq_some_iff.1 (Option.mem_toList.1 hd)
    cases heq
    subst hd'
    have hc : c'' = c := by
      generalize stage'.phase = φ' at hgo
      generalize stage.phase = φ at hgo
      cases hgo with
      | save => rfl
    subst hc
    exact ⟨o, stage, stage', below, p, p', hf, rfl, rfl, rfl, hgo⟩
  | rest _ => cases List.mem_singleton.1 hd
  | stop _ => cases List.mem_singleton.1 hd
  | halt _ => cases List.mem_singleton.1 hd
  | panic _ => cases List.mem_singleton.1 hd
  | receive _ => cases hd

/-! ## The chains that may still go on -/

/-- How many chains of an instance may still go on: those that tasks take on, and those that rest
under tokens that are not cancelled. -/
def liveChains (inst : String) (e : Engine) : Nat :=
  ((e.frames.filterMap Frame.chain?).countP fun c => c.inst = inst) +
    e.scheduler.timers.armed.countP fun x =>
      x.work.chain.inst = inst ∧ e.isCancelled x.token = false

theorem chainsOf_le (k : DispatcherId × String) (e : Engine) :
    e.chainsOf k ≤ e.liveChains k.2 := by
  refine Nat.add_le_add (List.countP_mono_left fun c _ hc => ?_)
    (List.countP_mono_left fun x _ hx => ?_)
  · rw [decide_eq_true_eq] at hc ⊢
    exact hc ▸ rfl
  · rw [decide_eq_true_eq] at hx ⊢
    exact ⟨hx.1 ▸ rfl, hx.2⟩

/-- The strands of a member that may still go on. -/
def liveStrands (e : Engine) : Member → List Strand
  | .task t => (Member.task t).strands
  | .timer x => if e.isCancelled x.token then [] else [x.strand]

theorem mem_liveStrands {m : Member} (hlive : e.isCancelled m.token = false) {s : Strand}
    (hs : s ∈ m.strands) : s ∈ e.liveStrands m := by
  cases m with
  | task t => exact hs
  | timer x =>
    have hlive : e.isCancelled x.token = false := hlive
    rw [liveStrands, hlive]
    exact hs

theorem bind_tasks (ts : List Task) :
    (Member.tasks ts).bind (fun m => (m.strands : Multiset Strand)) =
      ((ts.flatMap Task.frames).filterMap Frame.strand? : List Strand) := by
  rw [Member.tasks, Multiset.coe_bind, List.flatMap_map, List.filterMap_flatMap]
  rfl

theorem liveChains_eq (y : String) (e : Engine) : e.liveChains y =
    (e.members.bind fun m => (e.liveStrands m : Multiset Strand)).countP fun s => s.chain.inst = y := by
  have hframes : ∀ fs : List Frame, (fs.filterMap Frame.chain?).countP (fun c => c.inst = y) =
      (fs.filterMap Frame.strand?).countP fun s => s.chain.inst = y := by
    intro fs
    rw [List.countP_filterMap, List.countP_filterMap]
    congr 1
    funext f
    cases f <;> rfl
  have htasks : ∀ ts : List Task,
      ((Member.tasks ts).bind fun m => (e.liveStrands m : Multiset Strand)).countP
        (fun s => s.chain.inst = y) =
      (((ts.flatMap Task.frames).filterMap Frame.chain?).countP fun c => c.inst = y) := by
    intro ts
    have hbind : ((Member.tasks ts).bind fun m => (e.liveStrands m : Multiset Strand)) =
        (Member.tasks ts).bind fun m => (m.strands : Multiset Strand) := by
      refine Multiset.bind_congr fun m hm => ?_
      obtain ⟨t, -, rfl⟩ := Member.mem_tasks.1 hm
      rfl
    rw [hframes, hbind, bind_tasks, Multiset.coe_countP]
  have htimers : ∀ xs : List (Timer Continuation),
      ((Member.timers xs).bind fun m => (e.liveStrands m : Multiset Strand)).countP
        (fun s => s.chain.inst = y) =
      xs.countP fun x => x.work.chain.inst = y ∧ e.isCancelled x.token = false := by
    intro xs
    induction xs with
    | nil => rfl
    | cons x xs ih =>
      rw [Member.timers_cons, Multiset.cons_bind, Multiset.countP_add, ih, List.countP_cons,
        Nat.add_comm, liveStrands, Multiset.coe_countP]
      cases e.isCancelled x.token <;> simp [Timer.strand, List.countP_cons]
  rw [members, Multiset.add_bind, Multiset.countP_add, htasks, htimers]
  rfl

/-- Besides a chain of an instance none is there that may still go on, if there is at most one. -/
theorem inst_ne_of_live {N R : Multiset Strand} {s : Strand}
    (hone : N.countP (fun s => s.chain.inst = y) ≤ 1) (hN : N = s ::ₘ R) (hs : s.chain.inst = y) :
    ∀ r ∈ R, r.chain.inst ≠ y := by
  rw [hN, Multiset.countP_cons_of_pos (p := fun s => s.chain.inst = y) R hs] at hone
  exact Multiset.countP_eq_zero.1 (by omega)

/-- Each chain of an instance that may still go on has come to the stored position. -/
def Abides (y : String) (e : Engine) : Prop :=
  ∀ m ∈ e.members, e.isCancelled m.token = false → ∀ s ∈ m.strands, s.Attains y (e.position y)

/-- A continuation that goes off comes to where it rested. -/
theorem Passage.attains {M R : Multiset Member} {woken : Option (Timer Continuation)} {p : Nat}
    (h : e.Passage a M R woken)
    (hM : ∀ m ∈ M, (e.act a).isCancelled m.token = false → ∀ s ∈ m.strands, s.Attains y p) :
    ∀ m ∈ (e.act a).members, (e.act a).isCancelled m.token = false →
      ∀ s ∈ m.strands, s.Attains y p := by
  intro m hm hlive s hs
  obtain ⟨x, hx, rfl⟩ | hm := h.mem_cases hm
  · have hrests : x.strand.Attains y p :=
      hM _ (h.mem_of_woken hx) hlive _ (List.mem_singleton_self _)
    rw [List.mem_singleton.1 hs]
    exact hrests.goes (q := 0) .wake
  · exact hM m (h.mem_of_mem_rest hm) hlive s hs

/-- The position of an instance is saved by its only chain that may still go on. -/
theorem Alters.attains_of_saved {N M : Multiset Member} {c : Chain} {n p : Nat}
    (h : e.Alters a ds N M) (hd : (c, .saved n) ∈ ds) (hinst : c.inst = y)
    (hdrop : ∀ place, a = .drop place → ∀ c n, (c, .saved n) ∉ ds)
    (hone : (N.bind fun m => (e.liveStrands m : Multiset Strand)).countP
      (fun s => s.chain.inst = y) ≤ 1)
    (hN : ∀ m ∈ N, e.isCancelled m.token = false → ∀ s ∈ m.strands, s.Attains y p) :
    ds = [(c, .saved n)] ∧ ∀ m ∈ M, e.isCancelled m.token = false →
      ∀ s ∈ m.strands, s.Attains y n := by
  cases h with
  | keep => cases hd
  | start => cases hd
  | drop => exact absurd hd (hdrop _ rfl c n)
  | cut =>
    obtain ⟨_, -, heq⟩ := List.mem_map.1 hd
    cases heq
  | @turn t _ rested left R hyields _ =>
    obtain ⟨o, stage, stage', below, q, q', hframes, rfl, hleft, rfl, hgo⟩ :=
      hyields.turns.saved_cases hd
    have hstrands : (Member.task t).strands =
        ⟨o, c, stage.phase⟩ :: below.filterMap Frame.strand? := by
      show t.frames.filterMap Frame.strand? = _
      rw [hframes]
      rfl
    have hothers := inst_ne_of_live hone
      (R := (below.filterMap Frame.strand? : List Strand) + R.bind fun m => (e.liveStrands m : Multiset Strand))
      (s := ⟨o, c, stage.phase⟩)
      (by rw [Multiset.cons_bind, liveStrands, hstrands, ← Multiset.cons_coe, Multiset.cons_add])
      hinst
    refine ⟨rfl, fun m hm hlive s hs => ?_⟩
    rw [Option.toList_none, Member.timers_nil, Multiset.add_zero] at hm
    rcases Multiset.mem_add.1 hm with hm | hm
    · obtain ⟨t', ht', rfl⟩ := Member.mem_tasks.1 hm
      obtain rfl := Option.mem_toList.1 ht'
      have hs : s ∈ t'.frames.filterMap Frame.strand? := hs
      have hleft : t'.frames = .driving o c stage' :: below := hleft
      rw [hleft] at hs
      rcases List.mem_cons.1 hs with rfl | hs
      · have htoken : t'.token = t.token := hyields.token t' rfl
        have hlive : e.isCancelled t.token = false := htoken ▸ hlive
        have htop := hN (.task t) (Multiset.mem_cons_self _ _) hlive ⟨o, c, stage.phase⟩
          (hstrands ▸ List.mem_cons_self)
        exact htop.goes hgo
      · exact fun _ heq => absurd heq (hothers s (Multiset.mem_add.2 (.inl hs)))
    · refine fun _ heq => absurd heq (hothers s (Multiset.mem_add.2 (.inr ?_)))
      exact Multiset.mem_bind.2 ⟨m, hm, mem_liveStrands hlive hs⟩

/-- What is left of a task has come to where its chains had, unless a position is saved. -/
theorem Yields.attains {left : Option Task} {p : Nat} (h : e.Yields t ds rested left)
    (ht : ∀ s ∈ (Member.task t).strands, s.Attains y p)
    (hds : ∀ c n, (c, .saved n) ∈ ds → c.inst ≠ y)
    (hstarted : ∀ c i, (c, .started i) ∈ ds → c.inst = y → i = p) :
    (∀ t' ∈ left, ∀ s ∈ (Member.task t').strands, s.Attains y p) ∧
      ∀ x ∈ rested, x.strand.Attains y p := by
  have hstrands := h.turns.strands (P := Strand.Attains y p) (Q := Strand.Attains y p) ht
    (fun _ hs => hs) ?_ ?_
  · refine ⟨?_, hstrands.2⟩
    rintro t' rfl
    exact hstrands.1
  · intro o o' c φ q ds q' c' φ' hs hgo hsublist _ hloyal hinst
    have hloyal' : c.definition.IsLoyal := hgo.definition_eq ▸ hloyal
    have hunsaved : Deed.position p ds = p := by
      refine Deed.position_of_forall_ne (fun n hn => ?_) _
      refine hds c n (hsublist.subset (List.mem_map_of_mem hn)) ?_
      exact (hgo.inst_eq hloyal').symm.trans hinst
    exact hunsaved ▸ hs.goes hgo hloyal hinst
  · intro r c i hd _ _ hinst
    obtain rfl := hstarted c i hd hinst
    exact ⟨_, _, [.started _], _, [], rfl, .start, .entering⟩

/-- Unless a position is saved, the chains that start come to the stored position, and the others
have. -/
theorem Sound.abides_of_unsaved (h : e.Sound .loyal) (ha : a.Meets .loyal) (hmarked : e.IsMarked)
    (habides : e.Abides y) (hds : ∀ c n, (c, .saved n) ∈ e.deeds a → c.inst ≠ y) :
    ∀ m ∈ (e.act a).members, (e.act a).isCancelled m.token = false →
      ∀ s ∈ m.strands, s.Attains y (e.position y) := by
  have hkept : ∀ {τ : Token}, (e.act a).isCancelled τ = false → e.isCancelled τ = false :=
    fun hlive => isCancelled_of_suffix (h.retains a).cancelled hlive
  have hstarted : ∀ c i, (c, .started i) ∈ e.deeds a → c.inst = y → i = e.position y := by
    rintro c i hd rfl
    exact ((h.act ha).2.started hd).2
  have hinherits : e.Inherits (fun _ => true) a := ⟨fun _ _ _ => rfl, fun _ _ => rfl⟩
  have hhanded := h.hands_on hmarked hinherits
    (P := fun m => (e.act a).isCancelled m.token = false →
      ∀ s ∈ m.strands, s.Attains y (e.position y))
    (fun m hm _ hlive => habides m hm (hkept hlive)) ?_ ?_ ?_
  · exact fun m hm => hhanded m hm rfl
  · intro t rested left _ ht _ hyields
    have hattains : (e.act a).isCancelled t.token = false → _ := fun hlive =>
      hyields.attains (habides _ ht (hkept hlive)) hds hstarted
    constructor
    · rintro t' rfl hlive
      have htoken : t'.token = t.token := hyields.token t' rfl
      exact (hattains (htoken ▸ hlive)).1 t' rfl
    · intro x hx hlive s hs
      have htoken : x.token = t.token.child e.next := (hyields.turns.of_rested x hx).1
      have hlive : (e.act a).isCancelled x.token = false := hlive
      rw [List.mem_singleton.1 hs]
      refine (hattains (Bool.eq_false_iff.2 fun hc => ?_)).2 x hx
      have hchild : (e.act a).isCancelled (t.token.child e.next) = true :=
        Token.isCancelled_child _ hc
      cases (htoken ▸ hlive).symm.trans hchild
  · intro token f ha' _ _ s hs
    cases a with
    | run => cases ha'; cases hs
    | resume => cases ha'; cases hs
    | _ => cases ha'
  · intro x n _ hx hlive s hs
    rw [List.mem_singleton.1 hs]
    exact (hx hlive x.strand (List.mem_singleton_self _)).goes (q := 0) .wake

/-- **By every act the chains of an instance that may still go on come to the stored position**, if
there is at most one. -/
theorem Sound.abides_act (h : e.Sound .loyal) (ha : a.Meets .loyal) (hmarked : e.IsMarked)
    (hone : e.liveChains y ≤ 1) (habides : e.Abides y) : (e.act a).Abides y := by
  have hposition : (e.act a).position y =
      Deed.position (e.position y) (Deed.of (fun c => c.inst == y) (e.deeds a)) :=
    (h.act ha).2.position_eq y
  by_cases hsaved : ∃ c n, (c, .saved n) ∈ e.deeds a ∧ c.inst = y
  · obtain ⟨c, n, hd, hinst⟩ := hsaved
    obtain ⟨M, R, woken, hpassage⟩ := h.passage a
    rw [liveChains_eq] at hone
    have hdrop : ∀ place, a = .drop place → ∀ c n, (c, .saved n) ∉ e.deeds a := by
      rintro place rfl c' n' hd'
      simp only [deeds] at hd'
      split at hd'
      · have heq := List.mem_singleton.1 hd'
        split at heq <;> cases heq
      · cases hd'
    obtain ⟨hds, hM⟩ := hpassage.alters.attains_of_saved hd hinst hdrop hone habides
    have hown : (c.inst == y) = true := beq_iff_eq.2 hinst
    have hn : (e.act a).position y = n := by
      rw [hposition, hds, Deed.of_singleton_of_pos (p := fun c => c.inst == y) hown]
      rfl
    rw [Abides, hn]
    exact hpassage.attains fun m hm hlive =>
      hM m hm (isCancelled_of_suffix (h.retains a).cancelled hlive)
  · have hunsaved : ∀ c n, (c, .saved n) ∈ e.deeds a → c.inst ≠ y :=
      fun c n hd hinst => hsaved ⟨c, n, hd, hinst⟩
    have hsame : (e.act a).position y = e.position y := by
      rw [hposition]
      refine Deed.position_of_forall_ne (fun n hn => ?_) _
      obtain ⟨c, hd, hinst⟩ := Deed.mem_of.1 hn
      exact hunsaved c n hd (beq_iff_eq.1 hinst)
    rw [Abides, hsame]
    exact h.abides_of_unsaved ha hmarked habides hunsaved

/-! ## Histories -/

/-- The position of an instance after a history is the one that was saved last for a chain of it. -/
theorem Sound.position_after {S : Standard} (h : e.Sound S) (hS : ∀ a ∈ as, a.Meets S)
    (y : String) : (e.after as).position y = Deed.position (e.position y) (e.story y as) := by
  induction as generalizing e with
  | nil => rfl
  | cons a as ih =>
    obtain ⟨hsound, hpasses⟩ := h.act (hS a List.mem_cons_self)
    have hact : (e.act a).position y =
        Deed.position (e.position y) (Deed.of (fun c => c.inst == y) (e.deeds a)) :=
      hpasses.position_eq y
    rw [story, chronicle, Deed.of_append, Deed.position_append, ← hact]
    exact ih hsound fun b hb => hS b (List.mem_cons_of_mem _ hb)

/-- A history in which at most one chain of an instance at a time may still go on. -/
structure IsLone (e : Engine) (inst : String) (as : List Act) : Prop where
  new : e.IsNew
  loyal : ∀ a ∈ as, a.Meets .loyal
  one : ∀ before, before <+: as → (e.after before).liveChains inst ≤ 1

namespace IsLone

variable {x : Timer Continuation}

theorem left (h : e.IsLone y (as ++ bs)) : e.IsLone y as where
  new := h.new
  loyal a ha := h.loyal a (List.mem_append_left _ ha)
  one before hbefore := h.one before (hbefore.trans (List.prefix_append _ _))

theorem abides (h : e.IsLone y as) : (e.after as).Abides y := by
  induction as using List.reverseRecOn with
  | nil => exact fun m hm => absurd hm (h.new.not_mem_members m)
  | append_singleton as a ih =>
    rw [after_concat]
    exact ((h.new.sound .loyal).after h.left.loyal).abides_act
      (h.loyal a (List.mem_append_right _ List.mem_cons_self))
      ((h.new.sound .any).isMarked_after h.new.isMarked as)
      (h.one as (List.prefix_append _ _)) (ih h.left)

/-- **A chain that rests and may still go on does so at the stored position.** -/
theorem position_eq (h : e.IsLone x.work.chain.inst as)
    (hx : x ∈ (e.after as).scheduler.timers.armed)
    (hlive : (e.after as).isCancelled x.token = false) :
    (e.after as).position x.work.chain.inst = x.work.next := by
  obtain ⟨p₀, T, hrecalls⟩ := h.abides _ (timer_mem_members hx) hlive x.strand (List.mem_singleton_self _)
    (((h.new.sound .loyal).after h.loyal).armed x hx) rfl
  exact hrecalls.position_of_resting

/-- **Besides it there are only continuations of the instance whose tokens are cancelled.** -/
theorem others (h : e.IsLone x.work.chain.inst as)
    (hx : x ∈ (e.after as).scheduler.timers.armed)
    (hlive : (e.after as).isCancelled x.token = false) {m : Member}
    (hm : m ∈ (e.after as).members) (hne : m ≠ .timer x) {s : Strand} (hs : s ∈ m.strands)
    (hinst : s.chain.inst = x.work.chain.inst) :
    ∃ z ∈ (e.after as).scheduler.timers.armed, m = .timer z ∧
      (e.after as).isCancelled z.token = true := by
  have hone := h.one as (List.prefix_refl _)
  rw [liveChains_eq] at hone
  obtain ⟨M, hM⟩ := Multiset.exists_cons_of_mem (timer_mem_members hx)
  have hothers := inst_ne_of_live hone (s := x.strand)
    (R := M.bind fun m => ((e.after as).liveStrands m : Multiset Strand))
    (by rw [hM, Multiset.cons_bind, liveStrands, hlive]; rfl) rfl
  have hM : m ∈ M := (Multiset.mem_cons.1 (hM ▸ hm)).resolve_left hne
  -- A member that may still go on would be a second one.
  have hcancelled : (e.after as).isCancelled m.token = true ∧ s ∉ (e.after as).liveStrands m := by
    have hnot : s ∉ (e.after as).liveStrands m := fun hin =>
      hothers s (Multiset.mem_bind.2 ⟨m, hM, hin⟩) hinst
    refine ⟨?_, hnot⟩
    by_contra hc
    exact hnot (mem_liveStrands (by simpa using hc) hs)
  cases m with
  | task t => exact absurd hs hcancelled.2
  | timer z => exact ⟨z, mem_armed_of_members hm, rfl, hcancelled.1⟩

/-- A continuation of the instance that may still go on is entered. -/
theorem enters {k : DispatcherId × String} (h : e.IsLone k.2 as) : (e.after as).Enters k := by
  induction as using List.reverseRecOn with
  | nil => exact ⟨by simp [h.new.armed]⟩
  | append_singleton as a ih =>
    rw [after_concat]
    exact (ih h.left).act (h.new.isNumbered as)
      ((chainsOf_le _ _).trans (h.one as (List.prefix_append _ _))) a

end IsLone

end Engine

end DurableFlow
