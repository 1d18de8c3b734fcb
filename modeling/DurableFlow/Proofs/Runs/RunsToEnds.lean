import DurableFlow.Proofs.Runs.StoriesWithChains

/-!
# Runs to their ends

The last run of an instance is what has been done for it since a chain started for the last time
(`Engine.LastRun`). A run that no mishap befalls does what its plans say: once the effects of a plan
are due, they are done one after the other (`Shifts.performed`), and a plan that ends with a stop is
the end of the run (`Shifts.finale`).

Main statements: where nothing moves any more, a run of which a step has failed, has asked to wait
or that has passed the last step ended with that, and before there was nothing but complete rounds
(`Engine.LastRun.failed`, `Engine.LastRun.parked`, `Engine.LastRun.completed`); and who waits for a
run that has ended so is told (`Engine.LastRun.told`).
-/

namespace DurableFlow

/-- Whether something befalls a chain: the store, the bus or the scheduler refuses, or the chain is
cancelled, dropped or cut off. -/
def Deed.isMishap : Deed → Bool
  | .unsaved _ | .refused _ | .unscheduled _ | .halted .cancelled | .dropped | .lost => true
  | _ => false

/-- The deeds of a step that fails, up to the end of the run. -/
def Deed.failing (inst workflow : String) (i : Nat) (cause : Cause) : List Deed :=
  [.executed i, .returned i (.failure cause), .settled (.error (.stepFailed cause)),
    .published ⟨inst, workflow, .failed i cause⟩, .stopped ⟨inst, .failed, none⟩]

/-- The deeds of a step that asks to wait, up to the end of the run. -/
def Deed.parking (inst workflow : String) (i : Nat) (message : String) : List Deed :=
  [.executed i, .returned i (.wait message), .saved i,
    .published ⟨inst, workflow, .waiting i message⟩, .settled (.ok ⟨inst, .waiting, none⟩),
    .stopped ⟨inst, .waiting, none⟩]

/-- The deeds of a run that passes the last step. -/
def Deed.completing (inst workflow : String) (output : Option Json) : List Deed :=
  [.passed output, .published ⟨inst, workflow, .completed⟩,
    .settled (.ok ⟨inst, .completed, output⟩), .stopped ⟨inst, .completed, output⟩]

/-- Whether a chain may be in the phase while nothing moves. -/
def Phase.IsStill : Phase → Prop
  | .within _ | .resting _ => True
  | _ => False

theorem Effect.deed_congr {c c' : Chain} (hcontext : c'.context = c.context)
    (hdefinition : c'.definition = c.definition) : Effect.deed c' = Effect.deed c := by
  funext effect
  cases effect with
  | publish news => simp only [deed, Chain.notice, Chain.inst, hcontext, hdefinition]
  | _ => rfl

/-- Who does one deed goes on by it, or ends by it, or starts. -/
theorem Shift.one_cases {D : Definition} {x : String} {st st' : Option (Chain × Phase)} {p p' : Nat}
    {c : Chain} {d : Deed} (h : Shift D x st p [(c, d)] st' p') :
    d.isStart = true ∨ ∃ φ, st = some (c, φ) ∧ (Ends φ d ∧ st' = none ∧ p' = p ∨
      ∃ c' φ', Goes p c φ [d] p' c' φ' ∧ st' = some (c', φ')) := by
  generalize hds : [(c, d)] = ds at h
  cases h with
  | still => cases hds
  | start =>
    cases hds
    exact .inl rfl
  | @go _ φ _ ds _ c' φ' hgo =>
    obtain rfl | ⟨d', rfl⟩ := hgo.deeds_cases
    · cases hds
    · cases hds
      exact .inr ⟨φ, rfl, .inr ⟨c', φ', hgo, rfl⟩⟩
  | ended hd =>
    cases hds
    exact .inr ⟨_, rfl, .inl ⟨hd, rfl, rfl⟩⟩

/-- Complete rounds decide nothing. -/
theorem Trail.not_final {d : Definition} {p j : Nat} {T : List Deed} (h : Trail d p T j) :
    ∀ x ∈ T, x.isFinal = false := by
  induction h with
  | start => simp [Deed.isFinal]
  | @round T i j o now es turn context c _ _ hplan hnext ih =>
    intro x hx
    simp only [List.mem_append, List.mem_cons, List.mem_map] at hx
    obtain hx | rfl | rfl | ⟨effect, heffect, rfl⟩ | hx := hx
    · exact ih x hx
    · rfl
    · rfl
    · cases effect with
      | settle s =>
        obtain ⟨done, es', rfl⟩ := List.append_of_mem heffect
        obtain ⟨⟨result, rfl⟩, -⟩ := Plan.settle_cases hplan
        cases hnext
      | _ => rfl
    · cases turn with
      | suspend next due =>
        rw [List.mem_singleton.1 hx]
        rfl
      | _ => cases hx

/-- A deed of a complete round: it neither decides anything nor tells how the instance ends. -/
def Deed.IsOnTheWay (d : Deed) : Prop := d.IsPassing ∧ d.isFinal = false

/-- On the way, nothing but delays is published. -/
theorem Deed.topic_of_isOnTheWay {T : List Deed} (hT : ∀ d ∈ T, d.IsOnTheWay) :
    ∀ n ∈ Deed.announcements T, n.topic = .delayed := by
  intro n hn
  exact (hT _ (Deed.mem_announcements.1 hn)).1

namespace Shifts

variable {D : Definition} {x : String} {st st' st'' : Option (Chain × Phase)} {p p' p'' : Nat}
  {l l' : List (Chain × Deed)} {k : CompletionId} {c : Chain} {φ : Phase} {i : Nat}

/-- What is done begins with something, or nothing changes. -/
theorem head (h : Shifts D x st p l st' p') :
    (l = [] ∧ st' = st ∧ p' = p) ∨ ∃ ds l' st₁ p₁, l = ds ++ l' ∧ Shift D x st p ds st₁ p₁ ∧
      ¬ (ds = [] ∧ st₁ = st) ∧ Shifts D x st₁ p₁ l' st' p' := by
  induction h with
  | refl => exact .inl ⟨rfl, rfl, rfl⟩
  | @tail l ds st₀ p₀ st₂ p₂ _ hs ih =>
    obtain ⟨rfl, rfl, rfl⟩ | ⟨ds₁, l₁, st₁, p₁, rfl, hs₁, hne, h₁⟩ := ih
    · by_cases hstill : ds = [] ∧ st₂ = st₀
      case neg => exact .inr ⟨ds, [], _, _, (List.append_nil ds).symm, hs, hstill, .refl⟩
      obtain ⟨rfl, rfl⟩ := hstill
      refine .inl ⟨rfl, rfl, ?_⟩
      generalize hds : ([] : List (Chain × Deed)) = ds at hs
      cases hs with
      | still => rfl
      | go hgo =>
        obtain rfl := List.map_eq_nil_iff.1 hds.symm
        cases hgo
    · exact .inr ⟨ds₁, l₁ ++ ds, st₁, p₁, by rw [List.append_assoc], hs₁, hne, h₁.tail hs⟩

/-- Without a chain, nothing is done until one starts. -/
theorem of_none (h : Shifts D x none p l st' p') (honce : ∀ d ∈ l, d.2.isStart = false) :
    l = [] ∧ st' = none ∧ p' = p := by
  obtain hnil | ⟨ds, l', st₁, p₁, rfl, hs, hne, -⟩ := h.head
  · exact hnil
  · cases hs with
    | still => exact absurd ⟨rfl, rfl⟩ hne
    | start => cases honce _ List.mem_cons_self

/-- While a chain is within a step, nothing but complete rounds has been done since its start. -/
theorem within {i : Nat} (h : Shifts D x none p l (some (c, .within i)) p') :
    p' = i ∧ ∃ T, Deed.recent (l.map Prod.snd) = T ++ [.executed i] ∧ ∀ d ∈ T, d.IsOnTheWay := by
  obtain ⟨-, l₀, p₁, _, hl, -, T₁, j, r, rfl, htrail, hround⟩ := h.story.recalls
  cases hround with
  | within hi =>
    refine ⟨rfl, Deed.recent (l₀ ++ T₁), ?_, ?_⟩
    · rw [hl, ← List.append_assoc, Deed.recent_append _ (by simp)]
    · intro d hd
      have hmem : d ∈ T₁ := by
        rw [← htrail.recent l₀]
        exact List.mem_cons_of_mem _ hd
      exact ⟨htrail.passing d hmem, htrail.not_final d hmem⟩

/-- Before a chain enters the place behind its last step, nothing but complete rounds has been done
since its start. -/
theorem entering {i : Nat} (h : Shifts D x none p l (some (c, .entering i)) p') :
    p' = i ∧ ∀ d ∈ Deed.recent (l.map Prod.snd), d.IsOnTheWay := by
  obtain ⟨-, l₀, p₁, _, hl, -, T₁, j, r, rfl, htrail, hround⟩ := h.story.recalls
  cases hround with
  | entering =>
    refine ⟨rfl, fun d hd => ?_⟩
    have hmem : d ∈ T₁ := by
      rw [hl, List.append_nil] at hd
      rw [← htrail.recent l₀]
      exact List.mem_cons_of_mem _ hd
    exact ⟨htrail.passing d hmem, htrail.not_final d hmem⟩

/-- Without a deed, a chain stays in its phase, arrives or is stopped. -/
theorem of_nil (h : Shifts D x st p [] st' p') :
    st' = st ∨ (∃ c i, st' = some (c, .entering i) ∧
      (st = some (c, .acting ⟨[], .arrive i⟩) ∨ st = some (c, .resting i))) ∨
    ∃ c fault, st' = some (c, .halting fault) := by
  generalize hl : ([] : List (Chain × Deed)) = l at h
  induction h with
  | refl => exact .inl rfl
  | tail _ hs ih =>
    obtain ⟨hnil, rfl⟩ := List.append_eq_nil_iff.1 hl.symm
    specialize ih hnil.symm
    generalize hds : ([] : List (Chain × Deed)) = ds at hs
    cases hs with
    | still => exact ih
    | go hgo =>
      obtain rfl := List.map_eq_nil_iff.1 hds.symm
      cases hgo with
      | withdraw => exact .inr (.inr ⟨_, _, rfl⟩)
      | abort => exact .inr (.inr ⟨_, _, rfl⟩)
      | arrive =>
        obtain heq | ⟨_, _, heq, -⟩ | ⟨_, _, heq⟩ := ih
        · exact .inr (.inl ⟨_, _, rfl, .inl heq.symm⟩)
        · cases heq
        · cases heq
      | wake =>
        obtain heq | ⟨_, _, heq, -⟩ | ⟨_, _, heq⟩ := ih
        · exact .inr (.inl ⟨_, _, rfl, .inr heq.symm⟩)
        · cases heq
        · cases heq
    | start => cases hds
    | ended => cases hds

/-- No single deed leads from a step, or from the place before it, back to where it began. -/
theorem eq_nil_of_length_le (h : Shifts D x (some (c, φ)) p l (some (c, φ)) p')
    (hφ : φ = .entering i ∨ φ = .within i) (hlength : l.length ≤ 1) : l = [] := by
  cases l with
  | nil => rfl
  | cons d l =>
    obtain rfl : l = [] :=
      List.length_eq_zero_iff.1 (Nat.le_zero.1 (Nat.le_of_succ_le_succ hlength))
    obtain ⟨st₁, p₁, st₂, p₂, h₁, hd, h₂⟩ := h.split (List.nil_append [d]).symm
    obtain ⟨c₁, d⟩ := d
    have hfrom : ∃ c' φ', st₁ = some (c', φ') ∧ (φ' = φ ∨ ∃ fault, φ' = .halting fault) := by
      obtain hst₁ | ⟨_, _, -, hst | hst⟩ | ⟨c', fault, hst₁⟩ := h₁.of_nil
      · exact ⟨c, φ, hst₁, .inl rfl⟩
      · obtain rfl | rfl := hφ <;> cases hst
      · obtain rfl | rfl := hφ <;> cases hst
      · exact ⟨c', _, hst₁, .inr ⟨fault, rfl⟩⟩
    have hto : ∃ c' φ', st₂ = some (c', φ') ∧ (φ' = φ ∨
        φ = .entering i ∧ ((∃ j, φ' = .acting ⟨[], .arrive j⟩) ∨ ∃ j, φ' = .resting j)) := by
      obtain hst | ⟨c', j, hst, hst₂⟩ | ⟨_, _, hst⟩ := h₂.of_nil
      · exact ⟨c, φ, hst.symm, .inl rfl⟩
      · have hentering : φ = .entering i := by
          obtain rfl | rfl := hφ
          · rfl
          · cases hst
        obtain hst₂ | hst₂ := hst₂
        · exact ⟨c', _, hst₂, .inr ⟨hentering, .inl ⟨j, rfl⟩⟩⟩
        · exact ⟨c', _, hst₂, .inr ⟨hentering, .inr ⟨j, rfl⟩⟩⟩
      · obtain rfl | rfl := hφ <;> cases hst
    obtain ⟨c₀, φ₁, rfl, hφ₁⟩ := hfrom
    obtain ⟨c₂, φ₂, rfl, hφ₂⟩ := hto
    obtain hstart | ⟨φ', heq, ⟨-, hnone, -⟩ | ⟨c', φ'', hgo, heq'⟩⟩ := hd.one_cases
    · cases d with
      | started q => cases hd.of_started.1
      | _ => cases hstart
    · cases hnone
    · cases heq
      cases heq'
      obtain rfl | ⟨_, rfl⟩ := hφ₁
      · obtain rfl | rfl := hφ
        · cases hgo <;> simp [Plan.atEnd] at hφ₂
        · cases hgo <;> simp at hφ₂
      · cases hgo

section

variable (hcalm : ∀ d ∈ l, d.2.isMishap = false)
  (hstill : ∀ c φ, st' = some (c, φ) → φ.IsStill)

include hcalm hstill

/-- An effect that is due is done next. -/
theorem performed_one {effect : Effect} {es : List Effect} {turn : Turn}
    (h : Shifts D x (some (c, .acting ⟨effect :: es, turn⟩)) p l st' p') :
    ∃ c' l', l = (c, effect.deed c) :: l' ∧ c'.context = c.context ∧
      c'.definition = c.definition ∧
      Shifts D x (some (c', .acting ⟨es, turn⟩)) (Effect.position p [effect]) l' st' p' := by
  obtain ⟨-, rfl, -⟩ | ⟨ds, l', st₁, p₁, rfl, hs, hne, h₁⟩ := h.head
  · exact absurd (hstill _ _ rfl) id
  have calm : ∀ {d : Chain × Deed}, d ∈ ds → d.2.isMishap = true → False := by
    intro d hd hmishap
    rw [hcalm d (List.mem_append_left _ hd)] at hmishap
    cases hmishap
  cases hs with
  | still => exact absurd ⟨rfl, rfl⟩ hne
  | go hgo =>
    cases hgo with
    | save => exact ⟨_, l', rfl, rfl, rfl, h₁⟩
    | unsave => exact (calm List.mem_cons_self rfl).elim
    | publish => exact ⟨_, l', rfl, rfl, rfl, h₁⟩
    | refuse => exact (calm List.mem_cons_self rfl).elim
    | settle => exact ⟨{ c with completion := none }, l', rfl, rfl, rfl, h₁⟩
  | ended hd =>
    cases hd with
    | lose => exact (calm List.mem_cons_self rfl).elim

/-- **The effects of a plan are done one after the other.** -/
theorem performed {es : List Effect} {turn : Turn}
    (h : Shifts D x (some (c, .acting ⟨es, turn⟩)) p l st' p') :
    ∃ c' l', l.map Prod.snd = es.map (Effect.deed c) ++ l'.map Prod.snd ∧
      (∀ d ∈ l', d ∈ l) ∧ c'.context = c.context ∧ c'.definition = c.definition ∧
      Shifts D x (some (c', .acting ⟨[], turn⟩)) (Effect.position p es) l' st' p' := by
  induction es generalizing c p l with
  | nil => exact ⟨c, l, rfl, fun _ => id, rfl, rfl, h⟩
  | cons effect es ih =>
    obtain ⟨c₁, l₁, rfl, hcontext, hdefinition, h₁⟩ := h.performed_one hcalm hstill
    obtain ⟨c', l', hl, hsub, hcontext', hdefinition', h'⟩ :=
      ih (fun d hd => hcalm d (List.mem_cons_of_mem _ hd)) h₁
    refine ⟨c', l', ?_, fun d hd => List.mem_cons_of_mem _ (hsub d hd),
      hcontext'.trans hcontext, hdefinition'.trans hdefinition, ?_⟩
    · rw [List.map_cons, hl, Effect.deed_congr hcontext hdefinition]
      rfl
    · rw [show effect :: es = [effect] ++ es from rfl, Effect.position_append]
      exact h'

/-- **A plan that ends with a stop is the end of a run.** -/
theorem finale (honce : ∀ d ∈ l, d.2.isStart = false) {es : List Effect} {result : RunResult}
    (h : Shifts D x (some (c, .acting ⟨es, .stop result⟩)) p l st' p') :
    l.map Prod.snd = es.map (Effect.deed c) ++ [.stopped result] ∧ st' = none ∧
      p' = Effect.position p es := by
  obtain ⟨c', l', hl, hsub, -, -, h'⟩ := h.performed hcalm hstill
  obtain ⟨-, rfl, -⟩ | ⟨ds, l'', st₁, p₁, rfl, hs, hne, h₁⟩ := h'.head
  · exact absurd (hstill _ _ rfl) id
  cases hs with
  | still => exact absurd ⟨rfl, rfl⟩ hne
  | go hgo => cases hgo
  | ended hd =>
    cases hd with
    | stop =>
      obtain ⟨rfl, rfl, rfl⟩ :=
        h₁.of_none fun d hd => honce d (hsub d (List.mem_append_right _ hd))
      exact ⟨hl, rfl, rfl⟩
    | lose => cases hcalm _ (hsub _ List.mem_cons_self)

end

end Shifts

/-! ## The last run of an instance -/

namespace Engine

variable {e : Engine} {D : Definition} {x : String} {as bs : List Act} {p : Nat} {c : Chain}
  {st : Option (Chain × Phase)} {k : CompletionId} {run : List (Chain × Deed)}

theorem saga_append (e : Engine) (x : String) (as bs : List Act) :
    e.saga x (as ++ bs) = e.saga x as ++ (e.after as).saga x bs := by
  rw [saga, chronicle_append, Deed.about_append]
  rfl

/-- What is done for an instance can be cut behind the act by which a deed is done. -/
theorem exists_saga_eq {l r : List (Chain × Deed)} {s : Chain × Deed}
    (h : e.saga x as = l ++ s :: r) (hs : s.2 ≠ .lost) :
    ∃ before after, as = before ++ after ∧ e.saga x before = l ++ [s] ∧
      (e.after before).saga x after = r := by
  induction as generalizing e l with
  | nil => cases List.append_ne_nil_of_right_ne_nil l (List.cons_ne_nil s r) h.symm
  | cons a as ih =>
    have hcons : ∀ bs, e.saga x (a :: bs) =
        Deed.about x (e.deeds a) ++ (e.act a).saga x bs := fun bs => by
      rw [saga, chronicle, Deed.about_append]
      rfl
    -- The deed is done later on, or it is the only one of the first act.
    have later : ∀ {m}, l = Deed.about x (e.deeds a) ++ m →
        (e.act a).saga x as = m ++ s :: r → ∃ before after, a :: as = before ++ after ∧
          e.saga x before = l ++ [s] ∧ (e.after before).saga x after = r := by
      rintro m rfl hrest
      obtain ⟨before, after, rfl, hbefore, hafter⟩ := ih hrest
      refine ⟨a :: before, after, rfl, ?_, hafter⟩
      rw [hcons, hbefore, List.append_assoc]
    rw [hcons] at h
    obtain ⟨m, hl, hrest⟩ | ⟨m, hfirst, hrest⟩ := List.append_eq_append_iff.1 h
    · exact later hl hrest
    · cases m with
      | nil => exact later (m := []) (by simpa using hfirst.symm) hrest.symm
      | cons s' m =>
        obtain ⟨rfl, rfl⟩ := List.cons.inj hrest
        have hmem : s ∈ Deed.about x (e.deeds a) := by
          rw [hfirst]
          exact List.mem_append_right _ List.mem_cons_self
        have hone : Deed.about x (e.deeds a) = [s] := by
          have hdeeds := deeds_eq_singleton (List.mem_filter.1 hmem).1 hs
          have hsublist : (Deed.about x (e.deeds a)).Sublist [s] := hdeeds ▸ List.filter_sublist
          exact hsublist.eq_of_length_le (List.length_pos_of_mem hmem)
        have hlength := congrArg List.length (hone.symm.trans hfirst)
        simp only [List.length_append, List.length_cons, List.length_nil] at hlength
        obtain rfl : l = [] := List.eq_nil_of_length_eq_zero (by omega)
        obtain rfl : m = [] := List.eq_nil_of_length_eq_zero (by omega)
        refine ⟨[a], as, rfl, ?_, rfl⟩
        rw [hcons, hone]
        rfl

/-- **What is done for an instance from some time on is a sequence of shifts.** -/
theorem Course.shifts_from (h : e.Course D x (as ++ bs)) (hst : (e.after as).Bears x st) :
    ∃ st', Shifts D x st ((e.after as).position x) ((e.after as).saga x bs) st'
        ((e.after (as ++ bs)).position x) ∧ (e.after (as ++ bs)).Bears x st' := by
  induction bs using List.reverseRecOn with
  | nil =>
    rw [List.append_nil]
    exact ⟨st, .refl, hst⟩
  | append_singleton bs a ih =>
    rw [← List.append_assoc] at h ⊢
    obtain ⟨st₁, hshifts, hst₁⟩ := ih h.left
    obtain ⟨st', hshifts', hst'⟩ := h.shifts_act hst₁
    rw [saga_concat, ← after_append]
    exact ⟨st', hshifts.trans hshifts', hst'⟩

/-- **Where nothing moves, chains rest or are within a step.** -/
theorem IsNew.isStill_of_isAtRest (h : e.IsNew) (hrest : (e.after as).IsAtRest)
    (hst : (e.after as).Bears x st) : ∀ c φ, st = some (c, φ) → φ.IsStill := by
  rintro c φ rfl
  have hpair : (c, φ) ∈ pairsOf x (e.after as).account.pairs := by
    rw [hst]
    exact Multiset.mem_coe.2 (List.mem_singleton_self _)
  obtain ⟨s, hs, hsφ⟩ := Multiset.mem_map.1 (Multiset.mem_filter.1 hpair).1
  obtain rfl : s.phase = φ := congrArg Prod.snd hsφ
  rcases Multiset.mem_add.1 hs with hs | hs
  · obtain ⟨f, hf, hstrand⟩ := List.mem_filterMap.1 hs
    obtain ⟨t, ht, hft⟩ := List.mem_flatMap.1 hf
    cases f with
    | driving o c' stage =>
      cases hstrand
      have hinside := h.isInside_of_frame hrest ht hft
      cases stage with
      | inside _ _ => trivial
      | calling _ _ => trivial
      | _ => cases hinside
    | _ => cases hstrand
  · obtain ⟨timer, -, rfl⟩ := List.mem_map.1 hs
    trivial

/-- The last run of an instance: it began with a chain at a position, and this has been done since,
without a mishap. -/
structure LastRun (e : Engine) (D : Definition) (x : String) (c : Chain) (p : Nat)
    (run : List (Chain × Deed)) (as : List Act) : Prop where
  course : e.Course D x as
  began : ∃ before, e.saga x as = before ++ (c, .started p) :: run
  once : ∀ d ∈ run, d.2.isStart = false
  calm : ∀ d ∈ run, d.2.isMishap = false

theorem Bears.isThrough (h : e.Bears x none) : e.IsThrough x := by
  intro c hc hx
  obtain ⟨φ, hnone⟩ := h.eq_of_mem hc hx
  cases hnone

namespace LastRun

variable {i : Nat}

/-- **What has been published about the instance since the last run began is what the run says.** -/
theorem publicationsOf (h : e.LastRun D x c p run as) :
    ∃ before after, as = before ++ after ∧ (∃ l, e.saga x before = l ++ [(c, .started p)]) ∧
      (e.after before).saga x after = run ∧
      (e.after as).publicationsOf x =
        (e.after before).publicationsOf x ++ Deed.announcements (run.map Prod.snd) := by
  obtain ⟨l, hl⟩ := h.began
  obtain ⟨before, after, rfl, hbefore, rfl⟩ := exists_saga_eq hl (by simp)
  refine ⟨before, after, rfl, ⟨l, hbefore⟩, rfl, ?_⟩
  rw [after_append, publicationsOf_after, map_snd_saga]

/-- What was done for the instance up to a deed of the last run, and what was done from there on. -/
theorem cut (h : e.LastRun D x c p run as) {run₁ run₂ : List (Chain × Deed)} {d : Chain × Deed}
    (hrun : run = run₁ ++ d :: run₂) :
    ∃ before st₁ q₁ st₂ q₂ st, Shifts D x none (e.position x) before st₁ q₁ ∧
      Deed.recent (before.map Prod.snd) = run₁.map Prod.snd ∧ Shift D x st₁ q₁ [d] st₂ q₂ ∧
      Shifts D x st₂ q₂ run₂ st ((e.after as).position x) ∧ (e.after as).Bears x st := by
  obtain ⟨before, hbefore⟩ := h.began
  obtain ⟨st, hshifts, hst⟩ := h.course.shifts
  have hsaga : e.saga x as = (before ++ (c, .started p) :: run₁) ++ d :: run₂ := by
    rw [hbefore, hrun, List.append_assoc]
    rfl
  obtain ⟨st₁, q₁, st₂, q₂, h₁, hd, h₂⟩ := hshifts.split hsaga
  refine ⟨_, st₁, q₁, st₂, q₂, st, h₁, ?_, hd, h₂, hst⟩
  have hrun₁ : ∀ q, .started q ∉ run₁.map Prod.snd := by
    intro q hq
    obtain ⟨s, hs, heq⟩ := List.mem_map.1 hq
    have hfalse := h.once s (hrun ▸ List.mem_append_left _ hs)
    rw [heq] at hfalse
    cases hfalse
  rw [List.map_append, List.map_cons, List.append_cons, Deed.recent_append _ hrun₁,
    Deed.recent_started, List.nil_append]

/-- The deeds after which a run stops, if its effects are done. -/
theorem stopped (h : e.LastRun D x c p run as) (hrest : (e.after as).IsAtRest) {c' : Chain}
    {q : Nat} {es : List Effect} {result : RunResult} {run₁ run₂ : List (Chain × Deed)}
    {d : Chain × Deed} (hrun : run = run₁ ++ d :: run₂) {st : Option (Chain × Phase)}
    (hshifts : Shifts D x (some (c', .acting ⟨es, .stop result⟩)) q run₂ st
      ((e.after as).position x)) (hst : (e.after as).Bears x st) :
    run₂.map Prod.snd = es.map (Effect.deed c') ++ [.stopped result] ∧
      (e.after as).position x = Effect.position q es ∧ (e.after as).IsThrough x := by
  have hsub : ∀ s ∈ run₂, s ∈ run := fun s hs => by
    rw [hrun]
    exact List.mem_append_right _ (List.mem_cons_of_mem _ hs)
  obtain ⟨hlast, rfl, hposition⟩ := hshifts.finale (fun s hs => h.calm s (hsub s hs))
    (h.course.new.isStill_of_isAtRest hrest hst) fun s hs => h.once s (hsub s hs)
  exact ⟨hlast, hposition, hst.isThrough⟩

/-- **A run of which a step has failed or has asked to wait has ended with that.** -/
theorem returned (h : e.LastRun D x c p run as) (hrest : (e.after as).IsAtRest) {o : Outcome}
    (hmem : .returned i o ∈ run.map Prod.snd) (ho : ¬ (Deed.returned i o).IsPassing) :
    ∃ T c' now es result, c'.inst = x ∧ c'.definition = D ∧
      Plan.ofOutcome D c'.context i now o = .ok ⟨es, .stop result⟩ ∧
      run.map Prod.snd =
        T ++ .executed i :: .returned i o :: (es.map (Effect.deed c') ++ [.stopped result]) ∧
      (∀ d ∈ T, d.IsOnTheWay) ∧ (e.after as).position x = Effect.position i es ∧
      (e.after as).IsThrough x := by
  obtain ⟨⟨P, d⟩, hd, rfl⟩ := List.mem_map.1 hmem
  obtain ⟨run₁, run₂, hrun⟩ := List.append_of_mem hd
  obtain ⟨before, st₁, q₁, st₂, q₂, st, hbefore, hrecent, hshift, hafter, hst⟩ := h.cut hrun
  obtain hstart | ⟨φ, rfl, ⟨hends, -⟩ | ⟨c', φ', hgo, rfl⟩⟩ := hshift.one_cases
  · cases hstart
  · cases hends
  have hwhole := (hbefore.trans (.one hshift)).story
  obtain ⟨-, hinst⟩ := hwhole.inst_eq
  obtain ⟨hdefinition, -⟩ := hwhole.recalls
  cases hgo with
  | @heed _ _ now plan context hr hplan =>
    have hplanD : Plan.ofOutcome D context i now o = .ok plan := hdefinition ▸ hplan
    obtain ⟨es, turn⟩ := plan
    obtain ⟨rfl, T, hT, hpassing⟩ := hbefore.within
    obtain ⟨result, rfl⟩ : ∃ result, turn = .stop result := by
      cases turn with
      | stop result => exact ⟨result, rfl⟩
      | arrive index => exact absurd (Plan.passing_of_next hplanD rfl) ho
      | suspend next due => exact absurd (Plan.passing_of_next hplanD rfl) ho
    obtain ⟨hlast, hposition, hthrough⟩ := h.stopped hrest hrun hafter hst
    refine ⟨T, { P with context }, now, es, result, hinst, hdefinition, hplanD, ?_, hpassing,
      hposition, hthrough⟩
    rw [hrun, List.map_append, ← hrecent, hT, List.map_cons, hlast, List.append_assoc]
    rfl
  | misjump hr hplan =>
    obtain ⟨label, rfl, -⟩ := Plan.error_cases hplan
    exact absurd trivial ho

/-- **A run of which a step has failed ended with that**, and its position is that of the step. -/
theorem failed (h : e.LastRun D x c p run as) (hrest : (e.after as).IsAtRest) {cause : Cause}
    (hmem : .returned i (.failure cause) ∈ run.map Prod.snd) :
    (∃ T, run.map Prod.snd = T ++ Deed.failing x D.name i cause ∧ ∀ d ∈ T, d.IsOnTheWay) ∧
      (e.after as).position x = i ∧ (e.after as).IsThrough x := by
  obtain ⟨T, c', now, es, result, rfl, rfl, hplan, hrun, hpassing, hposition, hthrough⟩ :=
    h.returned hrest hmem id
  cases hplan
  exact ⟨⟨T, hrun, hpassing⟩, hposition, hthrough⟩

/-- **A run of which a step has asked to wait ended with that**, and its position is that of the
step. -/
theorem parked (h : e.LastRun D x c p run as) (hrest : (e.after as).IsAtRest) {message : String}
    (hmem : .returned i (.wait message) ∈ run.map Prod.snd) :
    (∃ T, run.map Prod.snd = T ++ Deed.parking x D.name i message ∧ ∀ d ∈ T, d.IsOnTheWay) ∧
      (e.after as).position x = i ∧ (e.after as).IsThrough x := by
  obtain ⟨T, c', now, es, result, rfl, rfl, hplan, hrun, hpassing, hposition, hthrough⟩ :=
    h.returned hrest hmem id
  cases hplan
  exact ⟨⟨T, hrun, hpassing⟩, hposition, hthrough⟩

/-- **A run that has passed its last step has completed**, and its position is behind that step. -/
theorem completed (h : e.LastRun D x c p run as) (hrest : (e.after as).IsAtRest)
    {output : Option Json} (hmem : .passed output ∈ run.map Prod.snd) :
    (∃ T, run.map Prod.snd = T ++ Deed.completing x D.name output ∧ ∀ d ∈ T, d.IsOnTheWay) ∧
      D.size ≤ (e.after as).position x ∧ (e.after as).IsThrough x := by
  obtain ⟨⟨P, d⟩, hd, rfl⟩ := List.mem_map.1 hmem
  obtain ⟨run₁, run₂, hrun⟩ := List.append_of_mem hd
  obtain ⟨before, st₁, q₁, st₂, q₂, st, hbefore, hrecent, hshift, hafter, hst⟩ := h.cut hrun
  obtain hstart | ⟨φ, rfl, ⟨hends, -⟩ | ⟨c', φ', hgo, rfl⟩⟩ := hshift.one_cases
  · cases hstart
  · cases hends
  have hstory := hbefore.story
  obtain ⟨-, rfl⟩ := hstory.inst_eq
  obtain ⟨rfl, -⟩ := hstory.recalls
  cases hgo with
  | pass hi =>
    obtain ⟨rfl, hpassing⟩ := hbefore.entering
    obtain ⟨hlast, hposition, hthrough⟩ := h.stopped hrest hrun hafter hst
    refine ⟨⟨run₁.map Prod.snd, ?_, hrecent ▸ hpassing⟩, hposition ▸ hi, hthrough⟩
    rw [hrun, List.map_append, List.map_cons, hlast]
    rfl

/-- **Who waits for a run that has ended is told what it amounts to**, unless the call is cut
off. -/
theorem told (h : e.LastRun D x c p run as) (hrest : (e.after as).IsAtRest)
    (hk : c.completion = some k) (hthrough : (e.after as).IsThrough x) {T r : List Deed}
    {s : Settlement} (hrun : run.map Prod.snd = T ++ r) (hT : ∀ d ∈ T, d.IsOnTheWay)
    (hs : Deed.Answers (Deed.owed r) s)
    (hsaved : ∀ i message, .returned i (.wait message) ∈ Deed.owed r → .saved i ∈ Deed.owed r)
    (hpanic : .panicked ∉ Deed.owed r) (hlost : .lost ∉ Deed.owed r) :
    (e.after as).isUnderway k = false ∧
      (e.answers k as = [none] ∨ e.answers k as = [some (.settled s)]) := by
  obtain ⟨before, hbefore⟩ := h.began
  have hmem : (c, Deed.started p) ∈ e.saga x as := by
    rw [hbefore]
    exact List.mem_append_right _ List.mem_cons_self
  have hover := h.course.isUnderway_of_isThrough hmem hk hthrough
  refine ⟨hover, ?_⟩
  have hway : ∀ d ∈ .started p :: T, d.IsOnTheWay := List.forall_mem_cons.2 ⟨⟨trivial, rfl⟩, hT⟩
  have hunsettled : (Deed.started p :: T).any Deed.isSettled = false := by
    refine List.any_eq_false.2 fun d hd hsettled => ?_
    have hfinal := (hway d hd).2
    cases d with
    | settled s => cases hfinal
    | _ => cases hsettled
  have htale : e.tale k as = (.started p :: T) ++ Deed.owed r := by
    rw [h.course.tale_eq_owed hbefore h.once hk, hrun, ← List.cons_append,
      Deed.owed_of_not_any hunsettled]
  have hnot : ∀ {d : Deed}, d.isFinal = true → d ∉ Deed.owed r → d ∉ e.tale k as := by
    intro d hfinal hd hin
    rw [htale] at hin
    rcases List.mem_append.1 hin with hin | hin
    · rw [(hway d hin).2] at hfinal
      cases hfinal
    · exact hd hin
  obtain ⟨s', hverdict, hanswers⟩ := h.course.new.answers_of_isAtRest hrest
    (by rw [htale]; exact List.cons_ne_nil _ _) (hnot rfl hpanic) hover
  have hverdict' : Deed.Verdict (e.tale k as) s := by
    refine Deed.Answers.verdict ?_ (hnot rfl hlost)
    rw [htale]
    exact hs.append_left (fun d hd => (hway d hd).1) (fun d hd => (hway d hd).2) hsaved
  obtain rfl := hverdict.unique hverdict'
  exact hanswers

end LastRun

end Engine

end DurableFlow
