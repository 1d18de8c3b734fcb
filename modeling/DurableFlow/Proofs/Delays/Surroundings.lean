import DurableFlow.Proofs.Runs.StoriesWithChains
import Mathlib.Logic.Function.Iterate

/-!
# What a run meets with

What a run meets with are its steps, the store and the bus. `Surroundings` says what they answer,
by what has been seen of the run before, where nothing is seen of delays: a step that asks for a
delay is seen to go on at once. In given surroundings there is only one way in which a run that
never pauses can go, and it goes it move by move (`Surroundings.ride`).

Main statement: whatever a chain does in the surroundings, with all its delays, is seen as a stretch
of that one way (`Surroundings.Tracks.shifts`).
-/

namespace DurableFlow

/-! ## Leaving delays out -/

/-- What a step says where delays are left out. -/
def Outcome.hastened : Outcome → Outcome
  | .delay _ => .proceed
  | o => o

/-- What is left of a deed where delays are left out. -/
def Deed.hastened : Deed → Option Deed
  | .returned i o => some (.returned i o.hastened)
  | .published notice => if notice.topic = .delayed then none else some (.published notice)
  | .suspended _ => none
  | d => some d

/-- How far a chain is with a plan where delays are left out. -/
def Plan.hastened : Plan → Phase
  | ⟨.save n :: _, .suspend next _⟩ => .acting ⟨[.save n], .arrive next⟩
  | ⟨_, .suspend next _⟩ => .entering next
  | ⟨[], .arrive i⟩ => .entering i
  | plan => .acting plan

/-- How far a chain is where delays are left out. -/
def Phase.hastened : Phase → Phase
  | .acting plan => plan.hastened
  | .resting next => .entering next
  | φ => φ

/-- A plan publishes a delay if and only if it ends with one, and then last of all. -/
def Plan.IsTimely : Plan → Prop
  | ⟨es, .suspend next due⟩ =>
    es = [.save next, .publish (.delayed next due)] ∨ es = [.publish (.delayed next due)] ∨ es = []
  | ⟨es, _⟩ => ∀ news, .publish news ∈ es → news.topic ≠ .delayed

def Phase.IsTimely : Phase → Prop
  | .acting plan => plan.IsTimely
  | _ => True

/-- What is seen of a run: a deed, and the context in which it was done. -/
abbrev Sight := Context × Deed

/-- What is seen of deeds where delays are left out. -/
def Deed.sights (l : List (Chain × Deed)) : List Sight :=
  l.filterMap fun s => s.2.hastened.map (s.1.context, ·)

theorem Plan.isTimely_ofOutcome {d : Definition} {c : Context} {i : Nat} {now : Instant}
    {o : Outcome} {plan : Plan} (h : Plan.ofOutcome d c i now o = .ok plan) : plan.IsTimely := by
  cases o with
  | proceed => cases h; simp [IsTimely]
  | failure cause => cases h; simp [IsTimely, News.topic]
  | wait message => cases h; simp [IsTimely, News.topic]
  | delay duration => cases h; exact .inl rfl
  | jump label =>
    obtain ⟨target, -, rfl⟩ := jump_cases h
    simp [IsTimely]

/-- Leaving the delay out of an outcome leaves it out of the plan. -/
theorem Plan.hastened_ofOutcome {d : Definition} {c : Context} {i : Nat} {now : Instant}
    {o : Outcome} {plan : Plan} (h : Plan.ofOutcome d c i now o = .ok plan) (now' : Instant) :
    ∃ plan', Plan.ofOutcome d c i now' o.hastened = .ok plan' ∧
      plan'.hastened = plan.hastened := by
  cases o with
  | delay duration => cases h; exact ⟨_, rfl, rfl⟩
  | jump label =>
    obtain ⟨target, hlabel, rfl⟩ := jump_cases h
    exact ⟨_, by simp [Outcome.hastened, ofOutcome, hlabel], rfl⟩
  | _ => cases h; exact ⟨_, rfl, rfl⟩

theorem Goes.isTimely {p p' : Nat} {c c' : Chain} {φ φ' : Phase} {ds : List Deed}
    (h : Goes p c φ ds p' c' φ') (hφ : φ.IsTimely) : φ'.IsTimely := by
  -- The rest of a timely plan is timely.
  have rest : ∀ {effect es turn}, Plan.IsTimely ⟨effect :: es, turn⟩ → Plan.IsTimely ⟨es, turn⟩ := by
    intro effect es turn hplan
    cases turn with
    | suspend next due =>
      obtain h | h | h := hplan
      · exact .inr (.inl (List.cons.inj h).2)
      · exact .inr (.inr (List.cons.inj h).2)
      · cases h
    | _ => exact fun news hnews => hplan news (List.mem_cons_of_mem _ hnews)
  cases h with
  | heed _ hplan => exact Plan.isTimely_ofOutcome hplan
  | pass => simp [Phase.IsTimely, Plan.atEnd, Plan.IsTimely, News.topic]
  | save => exact rest hφ
  | publish => exact rest hφ
  | settle => exact rest hφ
  | _ => trivial

/-- A chain changes its context by a deed only. -/
theorem Goes.context_eq {p p' : Nat} {c c' : Chain} {φ φ' : Phase} (h : Goes p c φ [] p' c' φ') :
    c'.context = c.context := by
  cases h <;> rfl

/-- What never takes anything back has done all that it had done before. -/
theorem prefix_iterate {α β : Type} {f : List α × β → List α × β} (hf : ∀ r, r.1 <+: (f r).1)
    (r : List α × β) {m n : Nat} (h : m ≤ n) : (f^[m] r).1 <+: (f^[n] r).1 := by
  induction n, h using Nat.le_induction with
  | base => exact List.prefix_refl _
  | succ n _ ih =>
    rw [Function.iterate_succ_apply']
    exact ih.trans (hf _)

/-! ## The one way to go -/

/-- What a run meets with, by what has been seen of it before. -/
structure Surroundings where
  /-- The context that the present step leaves and what it says, unless it panics. -/
  step : List Sight → Option (Context × Outcome)
  /-- The error of the store, if a position cannot be saved. -/
  store : List Sight → Option StoreError
  /-- Whether the bus accepts a notice. -/
  bus : List Sight → Bool

namespace Surroundings

/-- The deed is one that the surroundings allow; delays can be announced and scheduled, and nothing
is cancelled or cut off. -/
def Allows (W : Surroundings) (l : List Sight) : Deed → Prop
  | .returned _ o => ∃ c, W.step l = some (c, o.hastened)
  | .panicked => W.step l = none
  | .saved _ => W.store l = none
  | .unsaved _ => W.store l ≠ none
  | .halted (.store error) => W.store l.dropLast = some error
  | .published notice => notice.topic ≠ .delayed → W.bus l = true
  | .refused notice => notice.topic ≠ .delayed ∧ W.bus l = false
  | .halted .cancelled | .unscheduled _ | .dropped | .lost => False
  | _ => True

instance (W : Surroundings) (l : List Sight) : DecidablePred (W.Allows l)
  | .returned _ o =>
    decidable_of_iff ((W.step l).map Prod.snd = some o.hastened) (by simp [Allows])
  | .panicked => inferInstanceAs (Decidable (W.step l = none))
  | .saved _ => inferInstanceAs (Decidable (W.store l = none))
  | .unsaved _ => inferInstanceAs (Decidable (W.store l ≠ none))
  | .halted (.store error) => inferInstanceAs (Decidable (W.store l.dropLast = some error))
  | .published notice =>
    inferInstanceAs (Decidable (notice.topic ≠ .delayed → W.bus l = true))
  | .refused notice => inferInstanceAs (Decidable (notice.topic ≠ .delayed ∧ W.bus l = false))
  | .halted .cancelled | .unscheduled _ | .dropped | .lost => inferInstanceAs (Decidable False)
  | .started _ | .executed _ | .passed _ | .settled _ | .suspended _ | .stopped _
  | .halted (.workflowNotFound _) | .halted (.instanceNotFound _) | .halted (.unknownLabel _ _)
  | .halted (.duplicateWorkflow _) | .halted (.nameMismatch _ _) | .halted (.definition _)
  | .halted (.scheduler _) | .halted .busClosed => inferInstanceAs (Decidable True)

/-- The next deed of a run that never pauses, and the context and the phase in which it leaves the
run, unless it ends it. -/
def move (W : Surroundings) (d : Definition) (l : List Sight) (c : Context) :
    Phase → Option (Deed × Option (Context × Phase))
  | .entering i =>
    if i < d.size then some (.executed i, some (c, .within i))
    else some (.passed c.output, some (c, .acting (.atEnd c)))
  | .within i =>
    match W.step l with
    | none => some (.panicked, none)
    | some (c, o) =>
      match Plan.ofOutcome d c i ⟨0⟩ o with
      | .ok plan => some (.returned i o, some (c, plan.hastened))
      | .error fault => some (.returned i o, some (c, .halting fault))
  | .acting ⟨.save n :: es, turn⟩ =>
    match W.store l with
    | none => some (.saved n, some (c, Plan.hastened ⟨es, turn⟩))
    | some error => some (.unsaved n, some (c, .halting (.store error)))
  | .acting ⟨.publish news :: es, turn⟩ =>
    let notice : Notice := ⟨c.inst, d.name, news⟩
    if W.bus l then some (.published notice, some (c, Plan.hastened ⟨es, turn⟩))
    else some (.refused notice, some (c, .halting .busClosed))
  | .acting ⟨.settle s :: es, turn⟩ => some (.settled s, some (c, Plan.hastened ⟨es, turn⟩))
  | .acting ⟨[], .stop result⟩ => some (.stopped result, none)
  | .halting fault => some (.halted fault, none)
  | _ => none

/-- A run that never pauses goes on by one deed. -/
def ride (W : Surroundings) (d : Definition) :
    List Sight × Option (Context × Phase) → List Sight × Option (Context × Phase)
  | (l, some (c, φ)) =>
    match W.move d l c φ with
    | some (deed, st) => (l ++ [(c, deed)], st)
    | none => (l, some (c, φ))
  | (l, none) => (l, none)

/-- A run that never pauses, after its start and some more deeds. -/
def express (W : Surroundings) (d : Definition) (c : Context) (p n : Nat) :
    List Sight × Option (Context × Phase) :=
  (W.ride d)^[n] ([(c, .started p)], some (c, .entering p))

variable {W : Surroundings} {d D : Definition} {c c₀ : Context} {p p₀ m n : Nat} {l : List Sight}

theorem express_succ (W : Surroundings) (d : Definition) (c : Context) (p n : Nat) :
    W.express d c p (n + 1) = W.ride d (W.express d c p n) :=
  Function.iterate_succ_apply' ..

theorem express_of_move {φ : Phase} {deed : Deed} {st : Option (Context × Phase)}
    (h : W.express d c₀ p₀ n = (l, some (c, φ))) (hmove : W.move d l c φ = some (deed, st)) :
    W.express d c₀ p₀ (n + 1) = (l ++ [(c, deed)], st) := by
  simp only [express_succ, h, ride, hmove]

theorem prefix_ride (W : Surroundings) (d : Definition)
    (r : List Sight × Option (Context × Phase)) : r.1 <+: (W.ride d r).1 := by
  unfold ride
  split
  · split
    · exact List.prefix_append _ _
    · exact List.prefix_refl _
  · exact List.prefix_refl _

/-- A run never takes anything back. -/
theorem express_prefix (W : Surroundings) (d : Definition) (c : Context) (p : Nat) (h : m ≤ n) :
    (W.express d c p m).1 <+: (W.express d c p n).1 :=
  prefix_iterate (W.prefix_ride d) _ h

/-- A run that is over does nothing any more. -/
theorem express_of_over (h : W.express d c p m = (l, none)) (hle : m ≤ n) :
    W.express d c p n = (l, none) := by
  induction n, hle using Nat.le_induction with
  | base => exact h
  | succ n _ ih => rw [express_succ, ih, ride]

/-- Of the steps of a definition, a run that never pauses sees their number and their labels. -/
theorem express_congr {d' : Definition} (hname : d'.name = d.name)
    (hlabels : d'.steps.map Step.label = d.steps.map Step.label) :
    W.express d' = W.express d := by
  have hsize : d'.size = d.size := by
    rw [Definition.size, Definition.size, ← List.length_map, hlabels, List.length_map]
  have hindex : d'.labelIndex? = d.labelIndex? := by
    funext label
    have hmap : ∀ d : Definition,
        d.labelIndex? label = (d.steps.map Step.label).findIdx? (· == some label) := by
      intro d
      rw [List.findIdx?_map]
      rfl
    rw [hmap, hmap, hlabels]
  have hplan : Plan.ofOutcome d' = Plan.ofOutcome d := by
    funext c i now o
    cases o <;> simp only [Plan.ofOutcome, hindex, hname]
  have hride : W.ride d' = W.ride d := by
    funext r
    obtain ⟨l, _ | ⟨c, φ⟩⟩ := r
    · rfl
    · have hmove : W.move d' l c φ = W.move d l c φ := by
        unfold move
        split <;> simp only [hsize, hname, hplan]
      simp only [ride, hmove]
  funext c p n
  rw [express, express, hride]

/-! ## Runs with delays -/

/-- How far a chain is agrees with how far the run is that never pauses; a chain that is withdrawn
has nothing to agree with. -/
inductive Agrees (W : Surroundings) (l : List Sight) : Phase → Phase → Prop
  | same (φ : Phase) : Agrees W l φ φ.hastened
  | unsaved (error : StoreError) {error' : StoreError} (h : W.store l.dropLast = some error') :
      Agrees W l (.halting (.store error)) (.halting (.store error'))
  | withdrawn (ψ : Phase) : Agrees W l (.halting .cancelled) ψ

/-- A chain that is not halted agrees with one phase only. -/
theorem Agrees.eq_hastened {φ ψ : Phase} (h : W.Agrees l φ ψ) (hφ : ∀ fault, φ ≠ .halting fault) :
    ψ = φ.hastened := by
  cases h with
  | same => rfl
  | unsaved error _ => exact absurd rfl (hφ _)
  | withdrawn => exact absurd rfl (hφ _)

/-- The chain is where the run is that never pauses. -/
inductive Meets (W : Surroundings) (l : List Sight) :
    Option (Chain × Phase) → Option (Context × Phase) → Prop
  | on {c : Chain} {φ ψ : Phase} (h : W.Agrees l φ ψ) (hφ : φ.IsTimely) :
      Meets W l (some (c, φ)) (some (c.context, ψ))
  | ended : Meets W l none none

/-- What has been done for the chain since its start, if it has started, is seen as a stretch of the
run that never pauses. -/
def Tracks (W : Surroundings) (d : Definition) (c : Context) (p : Nat) (l : List (Chain × Deed))
    (st : Option (Chain × Phase)) : Prop :=
  l = [] ∧ st = none ∨
    ∃ n st', W.express d c p n = (Deed.sights l, st') ∧ W.Meets (Deed.sights l) st st'

end Surroundings

theorem Deed.sights_append (l l' : List (Chain × Deed)) :
    Deed.sights (l ++ l') = Deed.sights l ++ Deed.sights l' :=
  List.filterMap_append

namespace Surroundings.Tracks

variable {W : Surroundings} {D : Definition} {x : String} {c₀ : Context} {p₀ p p' : Nat}
  {l ds : List (Chain × Deed)} {c c' : Chain} {φ φ' : Phase} {deeds : List Deed}
  {st st' : Option (Chain × Phase)}

/-- What is not seen leaves the chain where it was. -/
theorem silent (h : W.Tracks D c₀ p₀ l (some (c, φ))) (hds : Deed.sights ds = [])
    (hcontext : c'.context = c.context) (hφ' : φ'.IsTimely)
    (hagrees : ∀ ψ, W.Agrees (Deed.sights l) φ ψ → W.Agrees (Deed.sights l) φ' ψ) :
    W.Tracks D c₀ p₀ (l ++ ds) (some (c', φ')) := by
  obtain ⟨-, hnone⟩ | ⟨n, st', hn, hst⟩ := h
  · cases hnone
  have hsights : Deed.sights (l ++ ds) = Deed.sights l := by
    rw [Deed.sights_append, hds, List.append_nil]
  rw [Tracks, hsights]
  cases hst with
  | on h hφ =>
    rw [← hcontext] at hn
    exact .inr ⟨n, _, hn, .on (hagrees _ h) hφ'⟩

/-- What is seen is the next deed of the run that never pauses. -/
theorem seen {d d' : Deed} (h : W.Tracks D c₀ p₀ l (some (c, φ))) (hd : d.hastened = some d')
    (hmove : ∀ ψ, W.Agrees (Deed.sights l) φ ψ → ∃ st', W.move D (Deed.sights l) c.context ψ =
      some (d', st') ∧ W.Meets (Deed.sights (l ++ [(c, d)])) st st') :
    W.Tracks D c₀ p₀ (l ++ [(c, d)]) st := by
  obtain ⟨-, hnone⟩ | ⟨n, _, hn, hst⟩ := h
  · cases hnone
  cases hst with
  | on h hφ =>
    obtain ⟨st', hmove, hmeets⟩ := hmove _ h
    refine .inr ⟨n + 1, st', ?_, hmeets⟩
    rw [express_of_move hn hmove, Deed.sights_append]
    simp [Deed.sights, hd]

/-- What is not seen leaves a chain that is not halted where it was. -/
theorem still (h : W.Tracks D c₀ p₀ l (some (c, φ))) (hds : Deed.sights ds = [])
    (hφ : ∀ fault, φ ≠ .halting fault) (hcontext : c'.context = c.context)
    (hsame : φ'.hastened = φ.hastened) (hφ' : φ'.IsTimely) :
    W.Tracks D c₀ p₀ (l ++ ds) (some (c', φ')) := by
  refine h.silent hds hcontext hφ' fun ψ hψ => ?_
  rw [hψ.eq_hastened hφ, ← hsame]
  exact .same φ'

/-- What a chain does that is not halted is the next deed of the run that never pauses. -/
theorem next {d d' : Deed} (h : W.Tracks D c₀ p₀ l (some (c, φ))) (hd : d.hastened = some d')
    (hφ : ∀ fault, φ ≠ .halting fault)
    (hmove : W.move D (Deed.sights l) c.context φ.hastened =
      some (d', some (c'.context, φ'.hastened))) (hφ' : φ'.IsTimely) :
    W.Tracks D c₀ p₀ (l ++ [(c, d)]) (some (c', φ')) := by
  refine h.seen hd fun ψ hψ => ?_
  rw [hψ.eq_hastened hφ]
  exact ⟨_, hmove, .on (.same φ') hφ'⟩

/-- A position is not saved, and the run that never pauses does not save it either. -/
theorem unsaved {n : Nat} {es : List Effect} {turn : Turn} {error : StoreError}
    (h : W.Tracks D c₀ p₀ l (some (c, .acting ⟨.save n :: es, turn⟩)))
    (hstore : W.store (Deed.sights l) ≠ none) :
    W.Tracks D c₀ p₀ (l ++ [(c, .unsaved n)]) (some (c, .halting (.store error))) := by
  obtain ⟨error', herror'⟩ := Option.ne_none_iff_exists'.1 hstore
  have hlast : (Deed.sights (l ++ [(c, .unsaved n)])).dropLast = Deed.sights l := by
    rw [Deed.sights_append]
    exact List.dropLast_concat
  refine h.seen rfl fun ψ hψ => ?_
  rw [hψ.eq_hastened (by simp)]
  refine ⟨_, ?_, .on (.unsaved error (hlast ▸ herror')) trivial⟩
  cases turn <;> simp only [move, Phase.hastened, Plan.hastened, herror']

/-- The phase of a chain that is tracked is timely. -/
theorem isTimely (h : W.Tracks D c₀ p₀ l (some (c, φ))) : φ.IsTimely := by
  obtain ⟨-, hnone⟩ | ⟨n, _, -, hst⟩ := h
  · cases hnone
  cases hst with
  | on _ hφ => exact hφ

/-- **Whatever a chain does in the surroundings, the run that never pauses does it next**, or it is
not seen. -/
theorem go (h : W.Tracks D c₀ p₀ l (some (c, φ))) (hc : c.definition = D)
    (hgo : Goes p c φ deeds p' c' φ') (hallows : ∀ d ∈ deeds, W.Allows (Deed.sights l) d)
    (hstep : ∀ i o, .returned i o ∈ deeds →
      W.step (Deed.sights l) = some (c'.context, o.hastened)) :
    W.Tracks D c₀ p₀ (l ++ deeds.map (c, ·)) (some (c', φ')) := by
  subst hc
  have htimely : φ.IsTimely := h.isTimely
  have htimely' := hgo.isTimely htimely
  cases hgo with
  | execute hi => exact h.next rfl (by simp) (if_pos hi) htimely'
  | pass hi => exact h.next rfl (by simp) (if_neg (Nat.not_lt.2 hi)) htimely'
  | withdraw => exact h.silent rfl rfl htimely' fun ψ _ => .withdrawn ψ
  | abort => exact h.silent rfl rfl htimely' fun ψ _ => .withdrawn ψ
  | heed hr hplan =>
    have hanswer := hstep _ _ (List.mem_singleton_self _)
    obtain ⟨plan', hplan', hsame⟩ := Plan.hastened_ofOutcome hplan ⟨0⟩
    refine h.next rfl (by simp) ?_ htimely'
    simp only [move, Phase.hastened, hanswer, hplan', hsame]
  | misjump hr hplan =>
    have hanswer := hstep _ _ (List.mem_singleton_self _)
    obtain ⟨label, rfl, hlabel, rfl⟩ := Plan.error_cases hplan
    refine h.next rfl (by simp) ?_ htimely'
    simp only [move, Phase.hastened, hanswer, Outcome.hastened, Plan.ofOutcome, hlabel]
  | @save n es turn =>
    have hstore : W.store (Deed.sights l) = none := hallows _ (List.mem_singleton_self _)
    refine h.next rfl (by simp) ?_ htimely'
    cases turn with
    | suspend next due =>
      obtain hes | hes | hes := htimely <;> cases hes
      simp only [move, Phase.hastened, Plan.hastened, hstore]
    | _ => simp only [move, Phase.hastened, Plan.hastened, hstore]
  | unsave => exact h.unsaved (hallows _ (List.mem_singleton_self _))
  | @publish news es turn =>
    have hbus := hallows _ (List.mem_singleton_self _)
    cases turn with
    | suspend next due =>
      -- The news of a delay are not seen.
      obtain hes | hes | hes := htimely <;> cases hes
      exact h.still rfl (by simp) rfl rfl htimely'
    | _ =>
      have hnews : news.topic ≠ .delayed := htimely news List.mem_cons_self
      exact h.next (if_neg hnews) (by simp) (if_pos (hbus hnews)) htimely'
  | @refuse news es turn =>
    obtain ⟨hnews, hbus⟩ := hallows _ (List.mem_singleton_self _)
    refine h.next rfl (by simp) ?_ htimely'
    cases turn with
    | suspend next due =>
      obtain hes | hes | hes := htimely <;> cases hes
      exact absurd rfl hnews
    | _ => exact if_neg (by rw [hbus]; exact Bool.false_ne_true)
  | @settle s es turn =>
    refine h.next rfl (by simp) ?_ htimely'
    cases turn with
    | suspend next due => obtain hes | hes | hes := htimely <;> cases hes
    | _ => rfl
  | arrive => exact h.still rfl (by simp) rfl rfl htimely'
  | suspend => exact h.still rfl (by simp) rfl rfl htimely'
  | unschedule => exact (hallows _ (List.mem_singleton_self _)).elim
  | wake => exact h.still rfl (by simp) rfl rfl htimely'

/-- The end of a chain is that of the run that never pauses. -/
theorem ended {d : Deed} (h : W.Tracks D c₀ p₀ l (some (c, φ))) (hd : Ends φ d)
    (hallows : W.Allows (Deed.sights l) d) : W.Tracks D c₀ p₀ (l ++ [(c, d)]) none := by
  cases hd with
  | stop =>
    refine h.seen rfl fun ψ hψ => ?_
    cases hψ
    exact ⟨none, rfl, .ended⟩
  | @halt fault =>
    refine h.seen rfl fun ψ hψ => ?_
    cases hψ with
    | same => exact ⟨none, rfl, .ended⟩
    | unsaved error herror =>
      have herror' : W.store (Deed.sights l).dropLast = some error := hallows
      obtain rfl := Option.some.inj (herror'.symm.trans herror)
      exact ⟨none, rfl, .ended⟩
    | withdrawn => exact hallows.elim
  | panic =>
    have hstep : W.step (Deed.sights l) = none := hallows
    refine h.seen rfl fun ψ hψ => ?_
    cases hψ
    exact ⟨none, by simp only [move, Phase.hastened, hstep], .ended⟩
  | drop => exact hallows.elim
  | lose => exact hallows.elim

/-- **Whatever an act does for the chain in the surroundings**, which is one deed at most, the run
that never pauses does it next, or it is not seen. -/
theorem shifts (h : W.Tracks D c₀ p₀ l st) (hshifts : Shifts D x st p ds st' p')
    (hst : ∀ c φ, st = some (c, φ) → c.definition = D) (hone : ds.length ≤ 1)
    (hstart : ∀ s ∈ ds, s.2.isStart = true → l = [] ∧ s.1.context = c₀ ∧ s.2 = .started p₀)
    (hallows : ∀ s ∈ ds, W.Allows (Deed.sights l) s.2)
    (hstep : ∀ s ∈ ds, ∀ i o, s.2 = .returned i o → ∀ c' φ', st' = some (c', φ') →
      W.step (Deed.sights l) = some (c'.context, o.hastened)) :
    W.Tracks D c₀ p₀ (l ++ ds) st' := by
  induction hshifts with
  | refl => rwa [List.append_nil]
  | @tail l₁ ds₁ st₁ _ _ _ h₁ hs ih =>
    -- Either the deed has been done before the last shift, or it is the last shift that does it.
    have hbefore : W.Tracks D c₀ p₀ (l ++ l₁) st₁ := by
      refine ih ?_ ?_ ?_ ?_
      · rw [List.length_append] at hone
        omega
      · exact fun s hs => hstart s (List.mem_append_left _ hs)
      · exact fun s hs => hallows s (List.mem_append_left _ hs)
      · rintro s hmem i o ho c' φ' rfl
        have hpos : 0 < l₁.length := List.length_pos_of_mem hmem
        have hnil : ds₁ = [] := by
          rw [List.length_append] at hone
          exact List.length_eq_zero_iff.1 (by omega)
        have hanswer := hstep s (List.mem_append_left _ hmem) i o ho
        cases hs with
        | still => exact hanswer c' φ' rfl
        | @go _ _ _ ds _ c'' φ'' hgo =>
          obtain rfl : ds = [] := List.map_eq_nil_iff.1 hnil
          rw [← hgo.context_eq]
          exact hanswer c'' φ'' rfl
        | ended => cases hnil
    rw [← List.append_assoc]
    cases hs with
    | still => rwa [List.append_nil]
    | @start c =>
      obtain ⟨rfl, rfl, hfirst⟩ := hstart _ (List.mem_append_right _ (List.mem_singleton_self _)) rfl
      obtain rfl := Deed.started.inj hfirst
      have hnil : l₁ = [] := by
        rw [List.length_append, List.length_singleton] at hone
        exact List.length_eq_zero_iff.1 (by omega)
      subst hnil
      exact .inr ⟨0, _, rfl, .on (.same _) trivial⟩
    | @go c φ _ ds _ c' φ' hgo =>
      have hc : c.definition = D := h₁.definition_eq hst c φ rfl
      have hfirst : ∀ d ∈ ds, l₁ = [] := by
        intro d hd
        have hpos : 0 < ds.length := List.length_pos_of_mem hd
        rw [List.length_append, List.length_map] at hone
        exact List.length_eq_zero_iff.1 (by omega)
      refine hbefore.go hc hgo ?_ ?_
      · intro d hd
        have hallowed := hallows (c, d) (List.mem_append_right _ (List.mem_map_of_mem hd))
        rw [hfirst d hd, List.append_nil]
        exact hallowed
      · intro i o hd
        have hanswer := hstep (c, .returned i o)
          (List.mem_append_right _ (List.mem_map_of_mem hd)) i o rfl c' φ' rfl
        rw [hfirst _ hd, List.append_nil]
        exact hanswer
    | @ended c φ _ d hd =>
      have hnil : l₁ = [] := by
        rw [List.length_append, List.length_singleton] at hone
        exact List.length_eq_zero_iff.1 (by omega)
      subst hnil
      rw [List.append_nil] at hbefore ⊢
      exact hbefore.ended hd (hallows _ (List.mem_singleton_self _))

end Surroundings.Tracks

end DurableFlow
