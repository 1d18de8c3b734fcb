import DurableFlow.Proofs.Soundness.Simulation
import Mathlib.Data.List.Induction
import Mathlib.Data.Multiset.Filter
import Mathlib.Data.Multiset.MapFold

/-!
# Stories of instances

The story of an instance is what is done for its chains, one after the other: a chain starts at the
stored position, goes on for as long as it can, and is over in one way or another before the next
one starts. `Story` says what the story is so far, which chain there is and what the position is.

Main statements: as long as at most one chain of an instance is there at a time, what is done for
the instance is a story (`Engine.Course.follows`); and each deed of a story was done by a chain of
which the deeds since its start are recalled (`Story.occurs`, `Story.recalls`).
-/

namespace DurableFlow

/-- What has been done for an instance of a loyal definition since the position was `p₀`, the chain
and its phase if there is one, and the position. -/
inductive Story (D : Definition) (x : String) (p₀ : Nat) :
    List Deed → Option (Chain × Phase) → Nat → Prop
  | nil : Story D x p₀ [] none p₀
  | start {l p c} (h : Story D x p₀ l none p) (hD : D.IsLoyal) (hc : c.definition = D)
      (hx : c.inst = x) : Story D x p₀ (l ++ [.started p]) (some (c, .entering p)) p
  | go {l c φ p ds p' c' φ'} (h : Story D x p₀ l (some (c, φ)) p)
      (hgo : Goes p c φ ds p' c' φ') : Story D x p₀ (l ++ ds) (some (c', φ')) p'
  | ended {l c φ p d} (h : Story D x p₀ l (some (c, φ)) p) (hd : Ends φ d) :
      Story D x p₀ (l ++ [d]) none p

/-- A deed may be the next one. -/
inductive Occurs : Nat → Option (Chain × Phase) → Deed → Prop
  | start {p} : Occurs p none (.started p)
  | go {p c φ d p' c' φ'} (h : Goes p c φ [d] p' c' φ') : Occurs p (some (c, φ)) d
  | ended {p c φ d} (h : Ends φ d) : Occurs p (some (c, φ)) d

/-- A chain does at most one deed at a time. -/
theorem Goes.deeds_cases {p p' : Nat} {c c' : Chain} {φ φ' : Phase} {ds : List Deed}
    (h : Goes p c φ ds p' c' φ') : ds = [] ∨ ∃ d, ds = [d] := by
  cases h <;> simp

namespace Story

variable {D : Definition} {x : String} {p₀ p : Nat} {l l₁ l₂ : List Deed} {d : Deed}
  {st : Option (Chain × Phase)} {c : Chain} {φ : Phase}

/-- **The chain of a story started at the stored position, and recalls what it has done.** -/
theorem recalls (h : Story D x p₀ l (some (c, φ)) p) :
    c.definition = D ∧ ∃ l₀ p₁ T, l = l₀ ++ T ∧ Story D x p₀ l₀ none p₁ ∧
      Recalls D p₁ T c φ p := by
  generalize hst : some (c, φ) = st at h
  induction h generalizing c φ with
  | nil => cases hst
  | start h _ hc _ _ =>
    cases hst
    exact ⟨hc, _, _, _, rfl, h, [.started _], _, [], rfl, .start, .entering⟩
  | go h hgo ih =>
    cases hst
    obtain ⟨hD, l₀, p₁, T, rfl, h₀, hT⟩ := ih rfl
    exact ⟨hgo.definition_eq.trans hD, l₀, p₁, _, List.append_assoc .., h₀, hT.goes hD hgo⟩
  | ended h hd _ => cases hst

/-- The chain of a story is one of the instance. -/
theorem inst_eq (h : Story D x p₀ l (some (c, φ)) p) : D.IsLoyal ∧ c.inst = x := by
  generalize hst : some (c, φ) = st at h
  induction h generalizing c φ with
  | nil => cases hst
  | start h hD hc hx _ =>
    cases hst
    exact ⟨hD, hx⟩
  | go h hgo ih =>
    cases hst
    obtain ⟨hD, hx⟩ := ih rfl
    obtain ⟨hc, -⟩ := h.recalls
    exact ⟨hD, (hgo.inst_eq (hc ▸ hD)).trans hx⟩
  | ended h hd _ => cases hst

/-- **Each deed of a story was done when the story had come so far.** -/
theorem occurs (h : Story D x p₀ l st p) (hl : l = l₁ ++ d :: l₂) :
    ∃ st₁ p₁, Story D x p₀ l₁ st₁ p₁ ∧ Occurs p₁ st₁ d := by
  -- A deed that is added at the end is the one that is asked for, or the one asked for is older.
  have last : ∀ {l : List Deed} {d' : Deed} {l₂ : List Deed}, l ++ [d'] = l₁ ++ d :: l₂ →
      (l = l₁ ∧ d' = d) ∨ ∃ l₃, l = l₁ ++ d :: l₃ := by
    intro l d' l₂ hl
    induction l₂ using List.reverseRecOn with
    | nil =>
      obtain ⟨rfl, hd⟩ := List.append_inj' hl rfl
      exact .inl ⟨rfl, (List.cons.inj hd).1⟩
    | append_singleton l₃ d'' _ =>
      rw [← List.cons_append, ← List.append_assoc] at hl
      exact .inr ⟨l₃, (List.append_inj' hl rfl).1⟩
  induction h generalizing l₂ with
  | nil => simp at hl
  | start h _ _ _ ih =>
    obtain ⟨rfl, rfl⟩ | ⟨l₃, hl₃⟩ := last hl
    · exact ⟨_, _, h, .start⟩
    · exact ih hl₃
  | go h hgo ih =>
    obtain rfl | ⟨d', rfl⟩ := hgo.deeds_cases
    · rw [List.append_nil] at hl
      exact ih hl
    · obtain ⟨rfl, rfl⟩ | ⟨l₃, hl₃⟩ := last hl
      · exact ⟨_, _, h, .go hgo⟩
      · exact ih hl₃
  | ended h hd ih =>
    obtain ⟨rfl, rfl⟩ | ⟨l₃, hl₃⟩ := last hl
    · exact ⟨_, _, h, .ended hd⟩
    · exact ih hl₃

end Story

/-! ## The chains of an account -/

/-- The chain and the phase of a strand. -/
def Strand.pair (s : Strand) : Chain × Phase := (s.chain, s.phase)

namespace Account

/-- The chains of an account with their phases. -/
def pairs (A : Account) : Multiset (Chain × Phase) := A.strands.map Strand.pair

/-- What may become of positions and of chains with their phases at one time. -/
inductive Changes (S : Standard) (p : String → Nat) (M : Multiset (Chain × Phase)) :
    List (Chain × Deed) → (String → Nat) → Multiset (Chain × Phase) → Prop
  | none : Changes S p M [] p M
  | go {c φ ds q c' φ' R N} (h : M = (c, φ) ::ₘ R) (hd : S.definition c.definition)
      (hgo : Goes (p c.inst) c φ ds q c' φ') (h' : N = (c', φ') ::ₘ R) :
      Changes S p M (ds.map (c, ·)) (Function.update p c.inst q) N
  | ended {c φ d R} (h : M = (c, φ) ::ₘ R) (hd : Ends φ d) : Changes S p M [(c, d)] p R

variable {S : Standard} {A B : Account} {ds : List (Chain × Deed)}
  {ts : List (CompletionId × Option Reply)}

theorem pairs_of_cons {s : Strand} {R : Multiset Strand} (h : A.strands = s ::ₘ R) :
    A.pairs = s.pair ::ₘ R.map Strand.pair := by
  rw [pairs, h, Multiset.map_cons]

/-- A chain that goes on without a change of a position. -/
theorem Changes.stay {p : String → Nat} {M N R : Multiset (Chain × Phase)} {c c' : Chain}
    {φ φ' : Phase} {ds : List Deed} (h : M = (c, φ) ::ₘ R) (hd : S.definition c.definition)
    (hgo : Goes (p c.inst) c φ ds (p c.inst) c' φ') (h' : N = (c', φ') ::ₘ R) :
    Changes S p M (ds.map (c, ·)) p N := by
  have hchanges := Changes.go h hd hgo h'
  rwa [Function.update_eq_self] at hchanges

/-- Who is told does not matter to the chains. -/
theorem Step.changes (h : Step S A ds ts B) :
    Changes S A.position A.pairs ds B.position B.pairs := by
  cases h with
  | number _ => exact .none
  | go h hd hgo _ _ => exact .go (pairs_of_cons h) hd hgo (Multiset.map_cons ..)
  | settle h hd => exact .stay (pairs_of_cons h) hd .settle (Multiset.map_cons ..)
  | suspend h hd => exact .stay (pairs_of_cons h) hd .suspend (Multiset.map_cons ..)
  | stop h => exact .ended (pairs_of_cons h) .stop
  | haltCall h _ => exact .ended (pairs_of_cons h) .halt
  | haltContinuation h => exact .ended (pairs_of_cons h) .halt
  | panic h => exact .ended (pairs_of_cons h) .panic
  | lose h => exact .ended (pairs_of_cons h) .lose
  | drop h => exact .ended (pairs_of_cons h) .drop
  | forget _ => exact .none
  | tell _ _ => exact .none
  | tellBroken _ _ _ => exact .none

end Account

/-! ## Following an instance -/

theorem Deed.of_append (p : Chain → Bool) (ds ds' : List (Chain × Deed)) :
    Deed.of p (ds ++ ds') = Deed.of p ds ++ Deed.of p ds' := by
  simp only [Deed.of, List.filter_append, List.map_append]

theorem Deed.of_map_of_pos {p : Chain → Bool} {c : Chain} (h : p c = true) (ds : List Deed) :
    Deed.of p (ds.map (c, ·)) = ds := by
  have hfilter : (ds.map (c, ·)).filter (fun d => p d.1) = ds.map (c, ·) := by
    refine List.filter_eq_self.2 fun d hd => ?_
    obtain ⟨_, -, rfl⟩ := List.mem_map.1 hd
    exact h
  rw [Deed.of, hfilter, List.map_map]
  exact List.map_id ds

theorem Deed.of_map_of_neg {p : Chain → Bool} {c : Chain} (h : p c = false) (ds : List Deed) :
    Deed.of p (ds.map (c, ·)) = [] := by
  have hfilter : (ds.map (c, ·)).filter (fun d => p d.1) = [] := by
    refine List.filter_eq_nil_iff.2 fun d hd => ?_
    obtain ⟨_, -, rfl⟩ := List.mem_map.1 hd
    simp [h]
  rw [Deed.of, hfilter, List.map_nil]

theorem Deed.of_singleton_of_pos {p : Chain → Bool} {c : Chain} (h : p c = true) (d : Deed) :
    Deed.of p [(c, d)] = [d] :=
  Deed.of_map_of_pos h [d]

theorem Deed.mem_of {p : Chain → Bool} {ds : List (Chain × Deed)} {d : Deed} :
    d ∈ Deed.of p ds ↔ ∃ c, (c, d) ∈ ds ∧ p c = true := by
  simp [Deed.of, and_comm]

/-- The chains of an instance, with their phases. -/
def pairsOf (x : String) (M : Multiset (Chain × Phase)) : Multiset (Chain × Phase) :=
  M.filter fun s => s.1.inst = x

theorem pairsOf_cons_of_eq {x : String} {c : Chain} (h : c.inst = x) (φ : Phase)
    (R : Multiset (Chain × Phase)) : pairsOf x ((c, φ) ::ₘ R) = (c, φ) ::ₘ pairsOf x R := by
  have hx : (fun s : Chain × Phase => s.1.inst = x) (c, φ) := h
  exact Multiset.filter_cons_of_pos R hx

theorem pairsOf_cons_of_ne {x : String} {c : Chain} (h : c.inst ≠ x) (φ : Phase)
    (R : Multiset (Chain × Phase)) : pairsOf x ((c, φ) ::ₘ R) = pairsOf x R := by
  have hx : ¬ (fun s : Chain × Phase => s.1.inst = x) (c, φ) := h
  exact Multiset.filter_cons_of_neg R hx

/-! ## One instance at a time -/

/-- What is done for the chains of an instance, with the chains as they were then. -/
def Deed.about (x : String) (ds : List (Chain × Deed)) : List (Chain × Deed) :=
  ds.filter fun d => d.1.inst == x

theorem Deed.about_append (x : String) (ds ds' : List (Chain × Deed)) :
    Deed.about x (ds ++ ds') = Deed.about x ds ++ Deed.about x ds' :=
  List.filter_append ..

theorem Deed.about_map_of_eq {x : String} {c : Chain} (h : c.inst = x) (ds : List Deed) :
    Deed.about x (ds.map (c, ·)) = ds.map (c, ·) := by
  refine List.filter_eq_self.2 fun d hd => ?_
  obtain ⟨_, -, rfl⟩ := List.mem_map.1 hd
  exact beq_iff_eq.2 h

theorem Deed.about_map_of_ne {x : String} {c : Chain} (h : c.inst ≠ x) (ds : List Deed) :
    Deed.about x (ds.map (c, ·)) = [] := by
  refine List.filter_eq_nil_iff.2 fun d hd => ?_
  obtain ⟨_, -, rfl⟩ := List.mem_map.1 hd
  simpa using h

/-- What may become at one time of the chain of an instance of a loyal definition, if there is one,
and of the position of the instance. -/
inductive Shift (D : Definition) (x : String) :
    Option (Chain × Phase) → Nat → List (Chain × Deed) → Option (Chain × Phase) → Nat → Prop
  | still {st p} : Shift D x st p [] st p
  | start {c p} (hD : D.IsLoyal) (hc : c.definition = D) (hx : c.inst = x) :
      Shift D x none p [(c, .started p)] (some (c, .entering p)) p
  | go {c φ p ds p' c' φ'} (hgo : Goes p c φ ds p' c' φ') :
      Shift D x (some (c, φ)) p (ds.map (c, ·)) (some (c', φ')) p'
  | ended {c φ p d} (hd : Ends φ d) : Shift D x (some (c, φ)) p [(c, d)] none p

/-- The chain of an instance of which there is at most one. -/
theorem pairsOf_eq_of_mem {x : String} {M R : Multiset (Chain × Phase)} {c : Chain} {φ : Phase}
    {st : Option (Chain × Phase)} (hM : M = (c, φ) ::ₘ R) (hx : c.inst = x)
    (hst : pairsOf x M = (st.toList : Multiset (Chain × Phase))) :
    st = some (c, φ) ∧ pairsOf x R = 0 := by
  rw [hM, pairsOf_cons_of_eq hx] at hst
  cases st with
  | none => exact absurd hst (Multiset.cons_ne_zero)
  | some s =>
    have hsingle : (((some s).toList : List (Chain × Phase)) : Multiset (Chain × Phase)) =
        s ::ₘ 0 := rfl
    rw [hsingle] at hst
    have hcard := congrArg Multiset.card hst
    rw [Multiset.card_cons, Multiset.card_cons, Multiset.card_zero] at hcard
    have hR : pairsOf x R = 0 := Multiset.card_eq_zero.1 (by omega)
    rw [hR] at hst
    obtain rfl : (c, φ) = s := by simpa using hst
    exact ⟨rfl, hR⟩

section Shift

variable {D : Definition} {x : String} {p q : String → Nat} {M N : Multiset (Chain × Phase)}
  {ds : List (Chain × Deed)} {st : Option (Chain × Phase)}

/-- **Whatever a chain does, the chain of an instance shifts by what is done for the instance.** -/
theorem Account.Changes.shift (D : Definition) (h : Account.Changes .loyal p M ds q N)
    (hst : pairsOf x M = (st.toList : Multiset (Chain × Phase))) :
    ∃ st' : Option (Chain × Phase), Shift D x st (p x) (Deed.about x ds) st' (q x) ∧
      pairsOf x N = (st'.toList : Multiset (Chain × Phase)) := by
  cases h with
  | none => exact ⟨st, .still, hst⟩
  | @go c φ ds q c' φ' R _ hM hd hgo hN =>
    have hinst : c'.inst = c.inst := hgo.inst_eq hd
    by_cases hx : c.inst = x
    · obtain ⟨rfl, hR⟩ := pairsOf_eq_of_mem hM hx hst
      subst hx
      rw [Deed.about_map_of_eq rfl, Function.update_self]
      refine ⟨some (c', φ'), .go hgo, ?_⟩
      rw [hN, pairsOf_cons_of_eq hinst, hR]
      rfl
    · rw [Deed.about_map_of_ne hx, Function.update_of_ne (Ne.symm hx)]
      refine ⟨st, .still, ?_⟩
      rw [hM, pairsOf_cons_of_ne hx] at hst
      rw [hN, pairsOf_cons_of_ne (hinst ▸ hx)]
      exact hst
  | @ended c φ d R hM hd =>
    have hsingle : [(c, d)] = [d].map (c, ·) := rfl
    by_cases hx : c.inst = x
    · obtain ⟨rfl, hR⟩ := pairsOf_eq_of_mem hM hx hst
      rw [hsingle, Deed.about_map_of_eq hx]
      exact ⟨Option.none, .ended hd, hR⟩
    · rw [hsingle, Deed.about_map_of_ne hx]
      rw [hM, pairsOf_cons_of_ne hx] at hst
      exact ⟨st, .still, hst⟩

/-- A run begins, and there is no other chain of the instance. -/
theorem Account.Starts.shift {A B : Account} (h : Account.Starts .loyal A ds B)
    (hst : pairsOf x A.pairs = (st.toList : Multiset (Chain × Phase)))
    (halone : (pairsOf x B.pairs).card ≤ 1)
    (hdefinition : ∀ s ∈ B.pairs, s.1.inst = x → s.1.definition = D) :
    ∃ st' : Option (Chain × Phase),
      Shift D x st (A.position x) (Deed.about x ds) st' (B.position x) ∧
        pairsOf x B.pairs = (st'.toList : Multiset (Chain × Phase)) := by
  cases h with
  | @start q r c i hq hd hi hc =>
    have hsingle : [(c, Deed.started i)] = [.started i].map (c, ·) := rfl
    have hpairs : Account.pairs { A with
          strands := ⟨.call r c.completion, c, .entering i⟩ ::ₘ A.strands
          next := A.next + 1 } = (c, .entering i) ::ₘ A.pairs := Multiset.map_cons ..
    rw [hpairs] at halone hdefinition
    by_cases hx : c.inst = x
    · rw [pairsOf_cons_of_eq hx, Multiset.card_cons] at halone
      have hnone : pairsOf x A.pairs = 0 := Multiset.card_eq_zero.1 (by omega)
      have hposition : i = A.position x := hx ▸ hi hq
      subst hposition
      rw [hsingle, Deed.about_map_of_eq hx]
      cases st with
      | some s =>
        rw [hnone] at hst
        cases (Multiset.coe_eq_zero _).1 hst.symm
      | none =>
        refine ⟨some (c, .entering (A.position x)), ?_, ?_⟩
        · have hD := hdefinition _ (Multiset.mem_cons_self _ _) hx
          exact .start (hD ▸ hd) hD hx
        · rw [hpairs, pairsOf_cons_of_eq hx, hnone]
          rfl
    · rw [hsingle, Deed.about_map_of_ne hx]
      refine ⟨st, .still, ?_⟩
      rw [hpairs, pairsOf_cons_of_ne hx, hst]

end Shift

/-- Positions and chains agree with the story of an instance. -/
def Follows (D : Definition) (x : String) (p₀ : Nat) (l : List Deed) (p : String → Nat)
    (M : Multiset (Chain × Phase)) : Prop :=
  ∃ st : Option (Chain × Phase), Story D x p₀ l st (p x) ∧
    pairsOf x M = (st.toList : Multiset (Chain × Phase))

/-- The story goes on by what is done for the instance. -/
theorem Story.shift {D : Definition} {x : String} {p₀ p p' : Nat} {l : List Deed}
    {ds : List (Chain × Deed)} {st st' : Option (Chain × Phase)} (h : Story D x p₀ l st p)
    (hs : Shift D x st p ds st' p') : Story D x p₀ (l ++ ds.map Prod.snd) st' p' := by
  cases hs with
  | still => simpa using h
  | start hD hc hx => exact h.start hD hc hx
  | @go c _ _ ds _ _ _ hgo =>
    have hdeeds : (ds.map (c, ·)).map Prod.snd = ds := by
      rw [List.map_map]
      exact List.map_id ds
    rw [hdeeds]
    exact h.go hgo
  | ended hd => exact h.ended hd

namespace Follows

variable {D : Definition} {x : String} {p₀ : Nat} {l : List Deed} {p q : String → Nat}
  {M N : Multiset (Chain × Phase)} {ds : List (Chain × Deed)}

/-- **Whatever a chain does, the story is followed.** -/
theorem changes (h : Follows D x p₀ l p M) (hchanges : Account.Changes .loyal p M ds q N) :
    Follows D x p₀ (l ++ Deed.of (fun c => c.inst == x) ds) q N := by
  obtain ⟨st, hstory, hst⟩ := h
  obtain ⟨st', hs, hst'⟩ := hchanges.shift D hst
  exact ⟨st', hstory.shift hs, hst'⟩

theorem steps {A B : Account} {ts : List (CompletionId × Option Reply)}
    (h : Follows D x p₀ l A.position A.pairs) (hsteps : Account.Steps .loyal A ds ts B) :
    Follows D x p₀ (l ++ Deed.of (fun c => c.inst == x) ds) B.position B.pairs := by
  induction hsteps with
  | refl =>
    rw [Deed.of, List.filter_nil, List.map_nil, List.append_nil]
    exact h
  | tail _ hstep ih =>
    rw [Deed.of_append, ← List.append_assoc]
    exact ih.changes hstep.changes

/-- A run begins, and there is no other chain of the instance. -/
theorem starts {A B : Account} (h : Follows D x p₀ l A.position A.pairs)
    (hstarts : Account.Starts .loyal A ds B) (halone : (pairsOf x B.pairs).card ≤ 1)
    (hdefinition : ∀ s ∈ B.pairs, s.1.inst = x → s.1.definition = D) :
    Follows D x p₀ (l ++ Deed.of (fun c => c.inst == x) ds) B.position B.pairs := by
  obtain ⟨st, hstory, hst⟩ := h
  obtain ⟨st', hs, hst'⟩ := hstarts.shift hst halone hdefinition
  exact ⟨st', hstory.shift hs, hst'⟩

end Follows

/-! ## Courses of engines -/

namespace Engine

/-- The chains of an engine: those of its tasks, and those that rest. -/
def chains (e : Engine) : List Chain :=
  e.frames.filterMap Frame.chain? ++ e.scheduler.continuations.map Continuation.chain

/-- At most one chain of the instance is there, and it is one of the definition. -/
structure Hosts (e : Engine) (D : Definition) (x : String) : Prop where
  alone : (e.chains.filter fun c => c.inst == x).length ≤ 1
  definition : ∀ c ∈ e.chains, c.inst = x → c.definition = D

/-- An engine with nothing in it but its surroundings. -/
structure IsNew (e : Engine) : Prop where
  tasks : e.tasks = []
  armed : e.scheduler.timers.armed = []
  runners : e.runners = .empty
  settled : e.settled = .empty

/-- A history of a new engine in which all steps are loyal, and in which there is at most one chain
of the instance at a time, which is one of the definition. -/
structure Course (e : Engine) (D : Definition) (x : String) (as : List Act) : Prop where
  new : e.IsNew
  loyal : ∀ a ∈ as, a.Meets .loyal
  hosts : ∀ as', as' <+: as → (e.after as').Hosts D x

theorem IsNew.sound {e : Engine} (h : e.IsNew) (S : Standard) : e.Sound S where
  numbers := by simp [h.tasks]
  lt_next := by simp [h.tasks]
  tasks := by simp [h.tasks]
  armed := by simp [h.armed]
  runners := by simp [h.runners]

theorem IsNew.pairs_eq {e : Engine} (h : e.IsNew) : e.account.pairs = 0 := by
  have hframes : e.frames = [] := by rw [frames, h.tasks]; rfl
  rw [Account.pairs, account, accountOf, hframes, h.armed]
  rfl

/-- **Soundness is kept throughout a history.** -/
theorem Sound.after {S : Standard} {e : Engine} (h : e.Sound S) {as : List Act}
    (has : ∀ a ∈ as, a.Meets S) : (e.after as).Sound S := by
  induction as generalizing e with
  | nil => exact h
  | cons a as ih =>
    exact ih (h.act (has a List.mem_cons_self)).1 fun b hb => has b (List.mem_cons_of_mem _ hb)

/-- The chains of an engine are those of its account. -/
theorem map_fst_pairs (e : Engine) : e.account.pairs.map Prod.fst = e.chains := by
  have hframes : ∀ fs : List Frame, (fs.filterMap Frame.strand?).map Strand.chain =
      fs.filterMap Frame.chain? := by
    intro fs
    rw [List.map_filterMap]
    congr 1
    funext f
    cases f <;> rfl
  have htimers : (e.scheduler.timers.armed.map Timer.strand).map Strand.chain =
      e.scheduler.continuations.map Continuation.chain := by
    rw [Scheduler.continuations, List.map_map, List.map_map]
    rfl
  rw [Account.pairs, Multiset.map_map]
  show Multiset.map Strand.chain (_ + _) = _
  rw [Multiset.map_add, Multiset.map_coe, Multiset.map_coe, htimers, hframes]
  rfl

theorem Sound.of_mem_chains {S : Standard} {e : Engine} (h : e.Sound S) {c : Chain}
    (hc : c ∈ e.chains) : S.definition c.definition := by
  rcases List.mem_append.1 hc with hc | hc
  · obtain ⟨f, hf, hchain⟩ := List.mem_filterMap.1 hc
    obtain ⟨t, ht, hft⟩ := List.mem_flatMap.1 hf
    have hsound := (h.tasks t ht).frames f hft
    cases f with
    | driving o c' stage =>
      cases hchain
      exact hsound.1
    | _ => cases hchain
  · obtain ⟨k, hk, rfl⟩ := List.mem_map.1 hc
    obtain ⟨timer, htimer, rfl⟩ := List.mem_map.1 hk
    exact h.armed timer htimer

theorem Hosts.card_le {e : Engine} {D : Definition} {x : String} (h : e.Hosts D x) :
    (pairsOf x e.account.pairs).card ≤ 1 := by
  have hfilter : (pairsOf x e.account.pairs).map Prod.fst =
      (e.chains.filter fun c => c.inst == x : List Chain) := by
    have hmap := Multiset.filter_map (fun c : Chain => c.inst = x) Prod.fst e.account.pairs
    rw [map_fst_pairs] at hmap
    exact hmap.symm
  have hcard := congrArg Multiset.card hfilter
  rw [Multiset.card_map, Multiset.coe_card] at hcard
  rw [hcard]
  exact h.alone

theorem Hosts.definition_eq {e : Engine} {D : Definition} {x : String} (h : e.Hosts D x) :
    ∀ s ∈ e.account.pairs, s.1.inst = x → s.1.definition = D := by
  intro s hs
  have hmem : s.1 ∈ e.account.pairs.map Prod.fst := Multiset.mem_map_of_mem _ hs
  rw [map_fst_pairs] at hmem
  exact h.definition s.1 hmem

namespace Course

variable {e : Engine} {D : Definition} {x : String} {as bs : List Act}

theorem left (h : e.Course D x (as ++ bs)) : e.Course D x as where
  new := h.new
  loyal a ha := h.loyal a (List.mem_append_left _ ha)
  hosts as' has' := h.hosts as' (has'.trans (List.prefix_append ..))

/-- What an act does is what can happen, and leaves one chain of the instance at most. -/
theorem passes_last (h : e.Course D x (as ++ [a])) :
    Account.Passes .loyal (e.after as).account ((e.after as).deeds a) ((e.after as).replies a)
        ((e.after as).act a).account ∧ ((e.after as).act a).Hosts D x := by
  have hsound : (e.after as).Sound .loyal := (h.new.sound .loyal).after h.left.loyal
  have ha : a.Meets .loyal := h.loyal a (List.mem_append_right _ List.mem_cons_self)
  refine ⟨(hsound.act ha).2, ?_⟩
  rw [← after_concat]
  exact h.hosts _ (List.prefix_refl _)

/-- **As long as at most one chain of an instance is there at a time, what is done for the instance
is a story.** -/
theorem follows (h : e.Course D x as) :
    Follows D x (e.position x) (e.story x as) (e.after as).position (e.after as).account.pairs := by
  induction as using List.reverseRecOn with
  | nil =>
    refine ⟨none, .nil, ?_⟩
    rw [after_nil, h.new.pairs_eq]
    rfl
  | append_singleton as a ih =>
    have hbefore := ih h.left
    obtain ⟨hpasses, hhosts⟩ := h.passes_last
    rw [story, chronicle_concat, Deed.of_append, after_concat]
    cases hpasses with
    | start hstart _ => exact hbefore.starts hstart hhosts.card_le hhosts.definition_eq
    | steps hsteps => exact hbefore.steps hsteps

/-- It is enough to look at the first stretches of a history, by their lengths. -/
theorem of_takes {S : Standard} (hnew : e.IsNew) (hloyal : ∀ a ∈ as, a.Meets .loyal)
    (hS : ∀ a ∈ as, a.Meets S)
    (hhosts : ∀ n < as.length + 1, (e.after (as.take n)).Sound S →
      (e.after (as.take n)).Hosts D x) :
    e.Course D x as where
  new := hnew
  loyal := hloyal
  hosts as' has' := by
    have htake : as' = as.take as'.length := List.prefix_iff_eq_take.1 has'
    have hsound : (e.after as').Sound S := (hnew.sound _).after fun a ha => hS a (has'.subset ha)
    rw [htake] at hsound ⊢
    exact hhosts _ (Nat.lt_succ_of_le has'.length_le) hsound

/-- Where there is one definition only, it is enough to count chains. -/
theorem of_only (hnew : e.IsNew) (hloyal : ∀ a ∈ as, a.Meets .loyal)
    (honly : ∀ a ∈ as, a.Meets (.only D))
    (halone : ∀ n < as.length + 1,
      ((e.after (as.take n)).chains.filter fun c => c.inst == x).length ≤ 1) :
    e.Course D x as :=
  of_takes hnew hloyal honly fun n hn hsound =>
    ⟨halone n hn, fun _ hc _ => hsound.of_mem_chains hc⟩

/-- Where definitions are told apart by their names, it is enough to look at the names. -/
theorem of_among {L : List Definition} (hnew : e.IsNew) (hloyal : ∀ a ∈ as, a.Meets .loyal)
    (hamong : ∀ a ∈ as, a.Meets (.among L)) (hname : ∀ d ∈ L, d.name = D.name → d = D)
    (hchains : ∀ n < as.length + 1,
      (((e.after (as.take n)).chains.filter fun c => c.inst == x).map fun c =>
        c.definition.name) ∈ [[], [D.name]]) :
    e.Course D x as := by
  refine of_takes hnew hloyal hamong fun n hn hsound => ?_
  have hnames := hchains n hn
  refine ⟨?_, fun c hc hx => hname _ (hsound.of_mem_chains hc) ?_⟩
  · rw [← List.length_map]
    rcases List.mem_cons.1 hnames with hnil | hone
    · rw [hnil]
      exact Nat.zero_le 1
    · rw [List.mem_singleton.1 hone]
      exact Nat.le_refl 1
  · have hmine : c ∈ (e.after (as.take n)).chains.filter fun c => c.inst == x :=
      List.mem_filter.2 ⟨hc, beq_iff_eq.2 hx⟩
    have hmem := List.mem_map_of_mem (f := fun c => c.definition.name) hmine
    rcases List.mem_cons.1 hnames with hnil | hone
    · rw [hnil] at hmem
      cases hmem
    · rw [List.mem_singleton.1 hone] at hmem
      exact List.mem_singleton.1 hmem

end Course

end Engine

/-! ## A greeting after a while -/

/-- A while that a delay takes. -/
def Duration.moment : Duration := ⟨500, by decide⟩

def Duration.microsecond : Duration := ⟨1000, by decide⟩

namespace Greeting

/-- A workflow that waits for a while and then goes on to its end. -/
def definition : Definition :=
  ⟨"greeting", [.delay .microsecond, .deciding fun _ => .proceed]⟩

def registry : Registry := ⟨.put .empty "greeting" definition⟩

def engine : Engine := { scheduler := { timers := { start := ⟨0⟩ } }, identity := fun _ => "" }

/-- A run of an instance whose caller waits. -/
def request : Request := { workflow := "greeting", inst := some "x", wait := true }

/-- A run up to the delay, the continuation after it, and what the caller is told. -/
def acts : List Act :=
  [.addRunner registry .empty, .run ⟨0⟩ (.root 0) request] ++ .replicate 7 (.advance 2) ++
    .wake 0 :: .replicate 8 (.advance 5) ++ .replicate 2 (.advance 2)

theorem isLoyal_definition : definition.IsLoyal := by
  intro s hs
  rcases List.mem_cons.1 hs with rfl | hs
  · exact Step.isLoyal_deciding _
  · rw [List.mem_singleton.1 hs]
    exact Step.isLoyal_deciding _

theorem meets_registry {S : Standard} (h : S.definition definition) : registry.Meets S :=
  Registry.meets_empty.put _ h

theorem meets_acts {S : Standard} (h : S.definition definition) : ∀ a ∈ acts, a.Meets S :=
  Act.forall_meets (meets_registry h) rfl

theorem course : engine.Course definition "x" acts := by
  refine .of_only ⟨rfl, rfl, rfl, rfl⟩ (meets_acts isLoyal_definition) (meets_acts rfl) ?_
  decide +kernel

end Greeting

end DurableFlow
