import DurableFlow.Proofs.NestedRuns.UnawaitedSteps
import DurableFlow.Proofs.Delays.Surroundings

/-!
# Circumstances of a run

Of a run, all is seen that it does, in which context, and only the instants are not at which its
delays are over. `Circumstances` says what a run meets with: the habits of its steps, and what the
other steps, the store, the bus, the scheduler and its token answer, by what has been seen of the
run before.
There is only one way in which a run can go then, and it goes it move by move
(`Circumstances.ride`).

Main statement: whatever a chain does in the circumstances is seen as a stretch of that one way
(`Circumstances.Tracks.shifts`).
-/

namespace DurableFlow

/-! ## What is seen -/

/-- News without the instant at which a delay is over. -/
def News.undated : News → News
  | .delayed next _ => .delayed next ⟨0⟩
  | news => news

def Effect.undated : Effect → Effect
  | .publish news => .publish news.undated
  | effect => effect

def Turn.undated : Turn → Turn
  | .suspend next _ => .suspend next ⟨0⟩
  | turn => turn

def Plan.undated (plan : Plan) : Plan := ⟨plan.effects.map Effect.undated, plan.turn.undated⟩

def Deed.undated : Deed → Deed
  | .published notice => .published { notice with news := notice.news.undated }
  | .refused notice => .refused { notice with news := notice.news.undated }
  | d => d

/-- Whether a run ends by this deed because it has been cancelled. -/
def Deed.isWithdrawal : Deed → Bool
  | .halted .cancelled => true
  | _ => false

/-- What is seen of deeds, each in its context. -/
def Deed.views (l : List (Chain × Deed)) : List Sight := l.map fun s => (s.1.context, s.2.undated)

theorem Deed.views_append (l l' : List (Chain × Deed)) :
    Deed.views (l ++ l') = Deed.views l ++ Deed.views l' :=
  List.map_append

/-- How far a run is, as far as its deeds tell. -/
inductive Standing
  | entering (index : Nat)
  | within (index : Nat)
  | acting (plan : Plan)
  | halting (fault : Fault)
  /-- About to halt because a position was not saved. -/
  | unsaved
  /-- About to halt because a continuation was not armed. -/
  | unarmed
  | over

def Plan.standing : Plan → Standing
  | ⟨[], .arrive i⟩ => .entering i
  | plan => .acting plan

def Fault.standing : Fault → Standing
  | .store _ => .unsaved
  | .scheduler _ => .unarmed
  | fault => .halting fault

def Phase.standing : Phase → Standing
  | .entering i | .resting i => .entering i
  | .within i => .within i
  | .acting plan => plan.undated.standing
  | .halting fault => fault.standing

namespace Shifts

variable {D : Definition} {x : String} {c : Chain} {φ : Phase} {st st' : Option (Chain × Phase)}
  {p p' : Nat}

/-- Where nothing is done, what chains keep that go on without a deed is kept. -/
theorem kept {P : Option (Chain × Phase) → Prop} (h : Shifts D x st p [] st' p') (hst : P st)
    (hgo : ∀ {q c φ q' c' φ'}, Goes q c φ [] q' c' φ' → P (some (c, φ)) → P (some (c', φ'))) :
    P st' := by
  generalize hds : [] = ds at h
  induction h with
  | refl => exact hst
  | tail _ hs ih =>
    obtain ⟨rfl, rfl⟩ := List.append_eq_nil_iff.1 hds.symm
    generalize hnone : [] = ds at hs
    cases hs with
    | still => exact ih rfl
    | start => cases hnone
    | go hgoes =>
      obtain rfl := List.map_eq_nil_iff.1 hnone.symm
      exact hgo hgoes (ih rfl)
    | ended => cases hnone

/-- Where nothing is done, a chain stays, with its context. -/
theorem context_eq (h : Shifts D x (some (c, φ)) p [] st' p') :
    ∃ c' φ', st' = some (c', φ') ∧ c'.context = c.context := by
  refine h.kept (P := fun st => ∃ c' φ', st = some (c', φ') ∧ c'.context = c.context)
    ⟨c, φ, rfl, rfl⟩ ?_
  rintro _ _ _ _ _ _ hgo ⟨_, _, ⟨⟩, hcontext⟩
  exact ⟨_, _, rfl, hgo.context_eq.trans hcontext⟩

/-- Where nothing is done, a chain stays within its step, or is withdrawn from it. -/
theorem stays_within {i : Nat} (h : Shifts D x (some (c, .within i)) p [] st' p') :
    st' = some (c, .within i) ∨ st' = some (c, .halting .cancelled) := by
  refine h.kept (P := fun st => st = some (c, .within i) ∨ st = some (c, .halting .cancelled))
    (.inl rfl) ?_
  rintro _ _ _ _ _ _ hgo (⟨⟨⟩⟩ | ⟨⟨⟩⟩)
  · cases hgo
    exact .inr rfl
  · cases hgo

end Shifts

theorem Plan.standing_ne_over (plan : Plan) : plan.standing ≠ .over := by
  unfold standing
  split <;> nofun

theorem Phase.standing_ne_over (φ : Phase) : φ.standing ≠ .over := by
  cases φ with
  | acting plan => exact plan.undated.standing_ne_over
  | halting fault => cases fault <;> nofun
  | _ => nofun

/-- What an outcome leads to does not depend on the time, except for its instants. -/
theorem Plan.undated_ofOutcome (d : Definition) (c : Context) (i : Nat) (now now' : Instant)
    (o : Outcome) :
    (ofOutcome d c i now o).map undated = (ofOutcome d c i now' o).map undated := by
  cases o <;> rfl

/-! ## The one way to go -/

/-- What a run meets with, by what has been seen of it before. -/
structure Circumstances where
  /-- What the steps with habits make of every context. -/
  habits : Habits
  /-- The context that any other step leaves and what it says, unless it panics. -/
  step : List Sight → Option (Context × Outcome)
  /-- The error of the store, if a position cannot be saved. -/
  store : List Sight → Option StoreError
  /-- Whether the bus accepts a notice. -/
  bus : List Sight → Bool
  /-- The error of the scheduler, if a continuation cannot be armed. -/
  scheduler : List Sight → Option SchedulerError
  /-- Whether the run is found to be cancelled. -/
  withdraws : List Sight → Bool

namespace Circumstances

/-- The context that a step leaves and what it says, unless it panics. -/
def answer (W : Circumstances) (l : List Sight) (c : Context) (i : Nat) :
    Option (Context × Outcome) :=
  match W.habits i with
  | some f => some (f c)
  | none => W.step l

/-- The deed goes with what the circumstances answer; nothing is cut off. -/
def Grants (W : Circumstances) (l : List Sight) : Deed → Prop
  | .panicked => W.step l = none
  | .saved _ => W.store l = none
  | .unsaved _ => W.store l ≠ none
  | .halted (.store error) => W.store l.dropLast = some error
  | .published _ => W.bus l = true
  | .refused _ => W.bus l = false
  | .suspended _ => W.scheduler l = none
  | .unscheduled _ => W.scheduler l ≠ none
  | .halted (.scheduler error) => W.scheduler l.dropLast = some error
  | .dropped | .lost => False
  | _ => True

/-- The deed is one that the circumstances allow. -/
structure Allows (W : Circumstances) (l : List Sight) (d : Deed) : Prop where
  withdraws : W.withdraws l = d.isWithdrawal
  grants : W.Grants l d

/-- The next deed of a run that is not withdrawn, and the context and the standing in which it leaves
the run. -/
def proceed (W : Circumstances) (d : Definition) (l : List Sight) (c : Context) :
    Standing → Option (Deed × Context × Standing)
  | .entering i =>
    if i < d.size then some (.executed i, c, .within i)
    else some (.passed c.output, c, (Plan.atEnd c).standing)
  | .within i =>
    match W.answer l c i with
    | none => some (.panicked, c, .over)
    | some (c, o) =>
      match (Plan.ofOutcome d c i ⟨0⟩ o).map Plan.undated with
      | .ok plan => some (.returned i o, c, plan.standing)
      | .error fault => some (.returned i o, c, fault.standing)
  | .acting ⟨.save n :: es, turn⟩ =>
    match W.store l with
    | none => some (.saved n, c, Plan.standing ⟨es, turn⟩)
    | some _ => some (.unsaved n, c, .unsaved)
  | .acting ⟨.publish news :: es, turn⟩ =>
    if W.bus l then some (.published ⟨c.inst, d.name, news⟩, c, Plan.standing ⟨es, turn⟩)
    else some (.refused ⟨c.inst, d.name, news⟩, c, .halting .busClosed)
  | .acting ⟨.settle s :: es, turn⟩ => some (.settled s, c, Plan.standing ⟨es, turn⟩)
  | .acting ⟨[], .stop result⟩ => some (.stopped result, c, .over)
  | .acting ⟨[], .suspend next _⟩ =>
    match W.scheduler l with
    | none => some (.suspended next, c, .entering next)
    | some _ => some (.unscheduled next, c, .unarmed)
  | .acting ⟨[], .arrive _⟩ => none
  | .halting fault => some (.halted fault, c, .over)
  | .unsaved => (W.store l.dropLast).map fun error => (.halted (.store error), c, .over)
  | .unarmed => (W.scheduler l.dropLast).map fun error => (.halted (.scheduler error), c, .over)
  | .over => none

/-- The next deed of a run, and the context and the standing in which it leaves the run. -/
def move (W : Circumstances) (d : Definition) (l : List Sight) (c : Context) (σ : Standing) :
    Option (Deed × Context × Standing) :=
  match σ, W.withdraws l with
  | .over, _ => none
  | _, true => some (.halted .cancelled, c, .over)
  | σ, false => W.proceed d l c σ

/-- A run goes on by one deed. -/
def ride (W : Circumstances) (d : Definition) (r : List Sight × Context × Standing) :
    List Sight × Context × Standing :=
  match W.move d r.1 r.2.1 r.2.2 with
  | some (deed, st) => (r.1 ++ [(r.2.1, deed)], st)
  | none => r

/-- A run after its start and some more deeds. -/
def course (W : Circumstances) (d : Definition) (c : Context) (p n : Nat) :
    List Sight × Context × Standing :=
  (W.ride d)^[n] ([(c, .started p)], c, .entering p)

variable {W : Circumstances} {d D : Definition} {c c₀ c₁ : Context} {p p₀ m n : Nat}
  {l l' : List Sight} {r r' : Context × Standing}

theorem move_of_proceed {σ : Standing} (h : W.withdraws l = false) :
    W.move d l c σ = W.proceed d l c σ := by
  cases σ with
  | «over» => rfl
  | _ => simp only [move, h]

theorem move_of_withdraws {σ : Standing} (h : W.withdraws l = true) (hσ : σ ≠ .over) :
    W.move d l c σ = some (.halted .cancelled, c, .over) := by
  cases σ with
  | «over» => exact absurd rfl hσ
  | _ => simp only [move, h]

theorem course_succ (W : Circumstances) (d : Definition) (c : Context) (p n : Nat) :
    W.course d c p (n + 1) = W.ride d (W.course d c p n) :=
  Function.iterate_succ_apply' ..

theorem course_of_move {σ : Standing} {deed : Deed} (h : W.course d c₀ p₀ n = (l, c, σ))
    (hmove : W.move d l c σ = some (deed, r)) :
    W.course d c₀ p₀ (n + 1) = (l ++ [(c, deed)], r) := by
  simp only [course_succ, h, ride, hmove]

theorem prefix_ride (W : Circumstances) (d : Definition) (r : List Sight × Context × Standing) :
    r.1 <+: (W.ride d r).1 := by
  unfold ride
  split
  · exact List.prefix_append _ _
  · exact List.prefix_refl _

/-- A run that is ahead of another one has done all that the other one has done. -/
theorem course_prefix (hm : W.course d c p m = (l, r)) (hn : W.course d c p n = (l', r'))
    (h : m ≤ n) : l <+: l' := by
  have hle := prefix_iterate (W.prefix_ride d) ([(c, .started p)], c, .entering p) h
  rw [← course, ← course, hm, hn] at hle
  exact hle

/-- A run that is over has done all that any run does. -/
theorem course_prefix_of_over (hm : W.course d c p m = (l, c₁, .over))
    (hn : W.course d c p n = (l', r')) : l' <+: l := by
  rcases Nat.le_total n m with h | h
  · exact course_prefix hn hm h
  · obtain ⟨k, rfl⟩ := Nat.exists_eq_add_of_le' h
    have hfixed : W.ride d (l, c₁, .over) = (l, c₁, .over) := rfl
    rw [course, Function.iterate_add_apply, ← course, hm, Function.iterate_fixed hfixed] at hn
    cases hn
    exact List.prefix_refl l

/-! ## What chains do -/

/-- The chain is where the run is; a chain that is withdrawn may be anywhere. -/
inductive Meets : Option (Chain × Phase) → Context × Standing → Prop
  | on {c : Chain} {φ : Phase} : Meets (some (c, φ)) (c.context, φ.standing)
  | withdrawn {c : Chain} {σ : Standing} (h : σ ≠ .over) :
    Meets (some (c, .halting .cancelled)) (c.context, σ)
  | ended {c : Context} : Meets none (c, .over)

/-- What has been done for the chain since its start, if it has started, is seen as a stretch of the
run. -/
def Tracks (W : Circumstances) (d : Definition) (c : Context) (p : Nat) (l : List (Chain × Deed))
    (st : Option (Chain × Phase)) : Prop :=
  l = [] ∧ st = none ∨ ∃ n r, W.course d c p n = (Deed.views l, r) ∧ Meets st r

namespace Tracks

variable {x : String} {p' : Nat} {l ds : List (Chain × Deed)} {c c' : Chain} {φ φ' : Phase}
  {deeds : List Deed} {st st' : Option (Chain × Phase)}

/-- Who is only about to do something else is where he was. -/
theorem still (h : W.Tracks D c₀ p₀ l (some (c, φ))) (hcontext : c'.context = c.context)
    (hφ : φ'.standing = φ.standing ∨ φ' = .halting .cancelled)
    (hwithdrawn : φ = .halting .cancelled → φ' = .halting .cancelled) :
    W.Tracks D c₀ p₀ l (some (c', φ')) := by
  obtain ⟨-, hnone⟩ | ⟨n, r, hn, hmeets⟩ := h
  · cases hnone
  refine .inr ⟨n, r, hn, ?_⟩
  cases hmeets with
  | on =>
    rw [← hcontext]
    obtain hsame | rfl := hφ
    · rw [← hsame]
      exact .on
    · exact .withdrawn φ.standing_ne_over
  | withdrawn hσ =>
    rw [← hcontext, hwithdrawn rfl]
    exact .withdrawn hσ

/-- What is done next is done next by the run. -/
theorem next {d : Deed} (h : W.Tracks D c₀ p₀ l (some (c, φ))) (hφ : φ ≠ .halting .cancelled)
    (hwithdraws : W.withdraws (Deed.views l) = false)
    (hproceed : W.proceed D (Deed.views l) c.context φ.standing = some (d.undated, r))
    (hmeets : Meets st r) : W.Tracks D c₀ p₀ (l ++ [(c, d)]) st := by
  obtain ⟨-, hnone⟩ | ⟨n, r', hn, hst⟩ := h
  · cases hnone
  cases hst with
  | on =>
    rw [Tracks, Deed.views_append]
    rw [← move_of_proceed hwithdraws] at hproceed
    exact .inr ⟨n + 1, r, course_of_move hn hproceed, hmeets⟩
  | withdrawn => exact absurd rfl hφ

/-- A chain that ends because it has been cancelled is one that is withdrawn. -/
theorem called_off (h : W.Tracks D c₀ p₀ l (some (c, φ)))
    (hwithdraws : W.withdraws (Deed.views l) = true) :
    W.Tracks D c₀ p₀ (l ++ [(c, .halted .cancelled)]) none := by
  obtain ⟨-, hnone⟩ | ⟨n, ⟨c', σ⟩, hn, hst⟩ := h
  · cases hnone
  obtain ⟨rfl, hσ⟩ : c' = c.context ∧ σ ≠ .over := by
    cases hst with
    | on => exact ⟨rfl, φ.standing_ne_over⟩
    | withdrawn hσ => exact ⟨rfl, hσ⟩
  rw [Tracks, Deed.views_append]
  exact .inr ⟨n + 1, _, course_of_move hn (move_of_withdraws hwithdraws hσ), .ended⟩

/-- A chain that does nothing is where it was, or is withdrawn. -/
theorem silent (h : W.Tracks D c₀ p₀ l (some (c, φ))) (hgo : Goes p c φ [] p' c' φ') :
    W.Tracks D c₀ p₀ l (some (c', φ')) := by
  cases hgo with
  | withdraw => exact h.still rfl (.inr rfl) nofun
  | abort => exact h.still rfl (.inr rfl) nofun
  | arrive => exact h.still rfl (.inl rfl) nofun
  | wake => exact h.still rfl (.inl rfl) nofun

/-- **Whatever a chain does in the circumstances, the run does it next.** -/
theorem go (h : W.Tracks D c₀ p₀ l (some (c, φ))) (hc : c.definition = D) {d : Deed}
    (hgo : Goes p c φ [d] p' c' φ') (hallows : W.Allows (Deed.views l) d)
    (hstep : ∀ i o, d = .returned i o →
      W.answer (Deed.views l) c.context i = some (c'.context, o)) :
    W.Tracks D c₀ p₀ (l ++ [(c, d)]) (some (c', φ')) := by
  subst hc
  obtain ⟨hwithdraws, hgrants⟩ := hallows
  cases hgo with
  | execute hi => exact h.next nofun hwithdraws (if_pos hi) .on
  | pass hi => exact h.next nofun hwithdraws (if_neg (Nat.not_lt.2 hi)) .on
  | @heed i o now plan context hr hplan =>
    refine h.next nofun hwithdraws ?_ .on
    simp only [proceed, Phase.standing, hstep _ _ rfl, Plan.undated_ofOutcome _ _ _ ⟨0⟩ now, hplan]
    rfl
  | @misjump i o now fault context hr hplan =>
    refine h.next nofun hwithdraws ?_ .on
    simp only [proceed, Phase.standing, hstep _ _ rfl, Plan.undated_ofOutcome _ _ _ ⟨0⟩ now, hplan]
    rfl
  | save =>
    have hstore : W.store (Deed.views l) = none := hgrants
    refine h.next nofun hwithdraws ?_ .on
    simp only [Phase.standing, Plan.undated, Plan.standing, List.map_cons, Effect.undated, proceed,
      hstore]
    rfl
  | unsave =>
    obtain ⟨error', herror'⟩ := Option.ne_none_iff_exists'.1 (show W.store _ ≠ none from hgrants)
    refine h.next nofun hwithdraws ?_ .on
    simp only [Phase.standing, Plan.undated, Plan.standing, List.map_cons, Effect.undated, proceed,
      herror']
    rfl
  | publish => exact h.next nofun hwithdraws (if_pos hgrants) .on
  | refuse =>
    have hbus : W.bus (Deed.views l) = false := hgrants
    exact h.next nofun hwithdraws (if_neg (by rw [hbus]; exact Bool.false_ne_true)) .on
  | settle => exact h.next nofun hwithdraws rfl .on
  | suspend =>
    have hscheduler : W.scheduler (Deed.views l) = none := hgrants
    refine h.next nofun hwithdraws ?_ .on
    simp only [Phase.standing, Plan.undated, Plan.standing, List.map_nil, Turn.undated, proceed,
      hscheduler]
    rfl
  | unschedule =>
    obtain ⟨error', herror'⟩ := Option.ne_none_iff_exists'.1
      (show W.scheduler _ ≠ none from hgrants)
    refine h.next nofun hwithdraws ?_ .on
    simp only [Phase.standing, Plan.undated, Plan.standing, List.map_nil, Turn.undated, proceed,
      herror']
    rfl

/-- **The end of a chain is that of the run.** -/
theorem ended {d : Deed} (h : W.Tracks D c₀ p₀ l (some (c, φ))) (hd : Ends φ d)
    (hallows : W.Allows (Deed.views l) d)
    (hstep : ∀ i, φ = .within i → d = .panicked → W.answer (Deed.views l) c.context i = none) :
    W.Tracks D c₀ p₀ (l ++ [(c, d)]) none := by
  obtain ⟨hwithdraws, hgrants⟩ := hallows
  cases hd with
  | stop => exact h.next nofun hwithdraws rfl .ended
  | @halt fault =>
    cases fault with
    | store error =>
      have hstore : W.store (Deed.views l).dropLast = some error := hgrants
      refine h.next nofun hwithdraws ?_ (.ended (c := c.context))
      simp only [Phase.standing, Fault.standing, proceed, hstore]
      rfl
    | scheduler error =>
      have hscheduler : W.scheduler (Deed.views l).dropLast = some error := hgrants
      refine h.next nofun hwithdraws ?_ (.ended (c := c.context))
      simp only [Phase.standing, Fault.standing, proceed, hscheduler]
      rfl
    | cancelled => exact h.called_off hwithdraws
    | _ => exact h.next nofun hwithdraws rfl .ended
  | panic =>
    refine h.next nofun hwithdraws ?_ (.ended (c := c.context))
    simp only [Phase.standing, proceed, hstep _ rfl rfl]
    rfl
  | drop => exact hgrants.elim
  | lose => exact hgrants.elim

/-- Where nothing is done, a chain is where it was, or is withdrawn. -/
theorem quiet (h : W.Tracks D c₀ p₀ l st) (hshifts : Shifts D x st p [] st' p') :
    W.Tracks D c₀ p₀ l st' :=
  hshifts.kept (P := W.Tracks D c₀ p₀ l) h fun hgo h => h.silent hgo

/-- Whatever is done for a chain at one time, the run does it next. -/
theorem shift {s : Chain × Deed} (h : W.Tracks D c₀ p₀ l st) (hs : Shift D x st p [s] st' p')
    (hst : ∀ c φ, st = some (c, φ) → c.definition = D)
    (hstart : s.2.isStart = true → l = [] ∧ s.1.context = c₀ ∧ s.2 = .started p₀)
    (hallows : W.Allows (Deed.views l) s.2)
    (hstep : ∀ i o, s.2 = .returned i o → ∀ c' φ', st' = some (c', φ') →
      W.answer (Deed.views l) s.1.context i = some (c'.context, o))
    (hpanic : s.2 = .panicked → ∀ i, st = some (s.1, .within i) →
      W.answer (Deed.views l) s.1.context i = none) : W.Tracks D c₀ p₀ (l ++ [s]) st' := by
  generalize hds : [s] = ds at hs
  cases hs with
  | still => cases hds
  | start =>
    cases hds
    obtain ⟨rfl, rfl, hfirst⟩ := hstart rfl
    cases hfirst
    exact .inr ⟨0, _, rfl, .on⟩
  | @go c φ _ ds _ c' φ' hgo =>
    obtain rfl | ⟨d, rfl⟩ := hgo.deeds_cases
    · cases hds
    · cases hds
      exact h.go (hst c φ rfl) hgo hallows fun i o ho => hstep i o ho c' φ' rfl
  | ended hd =>
    cases hds
    refine h.ended hd hallows fun i hφ hd => hpanic hd i (by rw [hφ])

/-- **Whatever an act does for a chain in the circumstances**, which is one deed at most, the run does
it next. -/
theorem shifts (h : W.Tracks D c₀ p₀ l st) (hshifts : Shifts D x st p ds st' p')
    (hst : ∀ c φ, st = some (c, φ) → c.definition = D) (hone : ds.length ≤ 1)
    (hstart : ∀ s ∈ ds, s.2.isStart = true → l = [] ∧ s.1.context = c₀ ∧ s.2 = .started p₀)
    (hallows : ∀ s ∈ ds, W.Allows (Deed.views l) s.2)
    (hstep : ∀ s ∈ ds, ∀ i o, s.2 = .returned i o → ∀ c' φ', st' = some (c', φ') →
      W.answer (Deed.views l) s.1.context i = some (c'.context, o))
    (hpanic : ∀ s ∈ ds, s.2 = .panicked → ∃ i, st = some (s.1, .within i) ∧
      W.answer (Deed.views l) s.1.context i = none) : W.Tracks D c₀ p₀ (l ++ ds) st' := by
  cases ds with
  | nil =>
    rw [List.append_nil]
    exact h.quiet hshifts
  | cons s ds =>
    obtain rfl : ds = [] := List.length_eq_zero_iff.1 (by simpa using hone)
    have hs := List.mem_singleton_self s
    obtain ⟨st₁, p₁, st₂, p₂, hbefore, hshift, hafter⟩ :=
      hshifts.split (show [s] = [] ++ s :: [] from rfl)
    refine ((h.quiet hbefore).shift hshift (hbefore.definition_eq hst) (hstart s hs)
      (hallows s hs) (fun i o ho c₂ φ₂ hst₂ => ?_) fun hd i hst₁ => ?_).quiet hafter
    · subst hst₂
      obtain ⟨c', φ', rfl, hcontext⟩ := hafter.context_eq
      rw [← hcontext]
      exact hstep s hs i o ho c' φ' rfl
    · obtain ⟨j, rfl, hnone⟩ := hpanic s hs hd
      obtain hsame | hwithdrawn := hbefore.stays_within
      · cases hst₁.symm.trans hsame
        exact hnone
      · cases hst₁.symm.trans hwithdrawn

end Tracks

end Circumstances

end DurableFlow
