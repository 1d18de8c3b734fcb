import DurableFlow.Proofs.NestedRuns.Resumptions

/-!
# Straight definitions

A definition is straight if each of its steps either waits for an event or goes on and leaves the
event alone; the itinerary of such a definition says which. It is an automaton: what is reached from
an index is the next leg that awaits an event, or the end (`Leg.halt`), and an event leads from one
to the next if it has the name that is awaited there (`Leg.onward`).

Main statement: a chain without an event does the legs up to the next one that awaits an event, one
after the other, and parks there, or completes (`Shifts.marches`).
-/

namespace DurableFlow

/-- What a step of a straight definition does. -/
inductive Leg
  /-- It goes on, and leaves the event alone. -/
  | act
  /-- It waits for the event of that name, and keeps its payload under the key. -/
  | await (event : String) (key : Option String)

/-- The step does what the leg says. -/
def Step.Takes (s : Step) : Leg → Prop
  | .act => ∀ c b, (s.execute c).Leaves b →
      (∀ c' o, b = .finish c' o → o = .proceed ∧ c'.event = c.event) ∧ ∀ c' p, b ≠ .panic c' p
  | .await event key => s.execute = (Step.waitForEvent event key).execute

/-- The steps do what the legs say, each its own. -/
def Definition.IsStraight (D : Definition) (legs : List Leg) : Prop :=
  List.Forall₂ Step.Takes D.steps legs

namespace Leg

def isAct : Leg → Bool
  | act => true
  | await _ _ => false

/-- The first leg from an index on that awaits an event, or the end. -/
def halt (legs : List Leg) (i : Nat) : Nat := i + ((legs.drop i).takeWhile isAct).length

/-- Where an event of that name leads from an index. -/
def onward (legs : List Leg) (i : Nat) (name : String) : Nat :=
  match legs[i]? with
  | some (.await event _) => if name = event then halt legs (i + 1) else i
  | _ => i

/-- The leg awaits an event, or all legs are behind. -/
def IsHalt (legs : List Leg) (i : Nat) : Prop :=
  (∃ event key, legs[i]? = some (.await event key)) ∨ i = legs.length

variable {legs : List Leg} {i j : Nat} {event name : String} {key : Option String}

theorem le_halt (legs : List Leg) (i : Nat) : i ≤ halt legs i := Nat.le_add_right _ _

theorem halt_of_act (h : legs[i]? = some .act) : halt legs i = halt legs (i + 1) := by
  obtain ⟨hlt, hleg⟩ := List.getElem?_eq_some_iff.1 h
  simp only [halt, List.drop_eq_getElem_cons hlt, hleg, List.takeWhile_cons, isAct, if_true,
    List.length_cons]
  omega

theorem halt_of_await (h : legs[i]? = some (.await event key)) : halt legs i = i := by
  obtain ⟨hlt, hleg⟩ := List.getElem?_eq_some_iff.1 h
  simp [halt, List.drop_eq_getElem_cons hlt, hleg, isAct]

theorem halt_of_le (h : legs.length ≤ i) : halt legs i = i := by
  simp [halt, List.drop_eq_nil_of_le h]

/-- What is reached awaits an event, or is the end. -/
theorem isHalt_halt (h : i ≤ legs.length) : IsHalt legs (halt legs i) := by
  induction hn : legs.length - i generalizing i with
  | zero => exact .inr ((halt_of_le (by omega)).trans (by omega))
  | succ n ih =>
    obtain ⟨leg, hleg⟩ : ∃ leg, legs[i]? = some leg := ⟨legs[i], List.getElem?_eq_getElem (by omega)⟩
    cases leg with
    | act =>
      rw [halt_of_act hleg]
      exact ih (by omega) (by omega)
    | await event key =>
      rw [halt_of_await hleg]
      exact .inl ⟨event, key, hleg⟩

/-- The legs between an index and what is reached from it go on. -/
theorem act_of_lt_halt (hij : i ≤ j) (hj : j < halt legs i) : legs[j]? = some .act := by
  induction hn : halt legs i - i generalizing i with
  | zero => omega
  | succ n ih =>
    have hlt : i < legs.length := by
      by_contra hle
      rw [halt_of_le (Nat.le_of_not_lt hle)] at hn
      omega
    cases hleg : legs[i] with
    | act =>
      have hact : legs[i]? = some .act := by rw [List.getElem?_eq_getElem hlt, hleg]
      obtain rfl | hne := Nat.eq_or_lt_of_le hij
      · exact hact
      · rw [halt_of_act hact] at hj hn
        exact ih (i := i + 1) hne hj (by omega)
    | await event key =>
      rw [halt_of_await (by rw [List.getElem?_eq_getElem hlt, hleg])] at hn
      omega

theorem onward_of_eq (h : legs[i]? = some (.await event key)) :
    onward legs i event = halt legs (i + 1) := by
  simp [onward, h]

theorem onward_of_ne (h : legs[i]? = some (.await event key)) (hname : name ≠ event) :
    onward legs i name = i := by
  simp [onward, h, hname]

theorem onward_of_le (h : legs.length ≤ i) : onward legs i name = i := by
  simp [onward, List.getElem?_eq_none h]

theorem IsHalt.le (h : IsHalt legs i) : i ≤ legs.length := by
  obtain ⟨event, key, hleg⟩ | rfl := h
  · exact (List.getElem?_eq_some_iff.1 hleg).1.le
  · exact le_rfl

/-- Where a run gets to from an index, without an event or with one. -/
def target (legs : List Leg) (i : Nat) : Option Event → Nat
  | none => halt legs i
  | some ev => onward legs i ev.name

theorem isHalt_onward (h : IsHalt legs i) (name : String) : IsHalt legs (onward legs i name) := by
  obtain ⟨event, key, hleg⟩ | rfl := h
  · by_cases hname : name = event
    · subst hname
      rw [onward_of_eq hleg]
      exact isHalt_halt (List.getElem?_eq_some_iff.1 hleg).1
    · rw [onward_of_ne hleg hname]
      exact .inl ⟨event, key, hleg⟩
  · rw [onward_of_le le_rfl]
    exact .inr rfl

/-- An event leads from a leg that awaits one past it, or nowhere. -/
theorem onward_cases (h : IsHalt legs i) (name : String) :
    onward legs i name = i ∨
      (∃ key, legs[i]? = some (.await name key)) ∧ onward legs i name = halt legs (i + 1) := by
  obtain ⟨event, key, hleg⟩ | rfl := h
  · by_cases hname : name = event
    · subst hname
      exact .inr ⟨⟨key, hleg⟩, onward_of_eq hleg⟩
    · exact .inl (onward_of_ne hleg hname)
  · exact .inl (onward_of_le le_rfl)

theorem le_onward (h : IsHalt legs i) (name : String) : i ≤ onward legs i name := by
  obtain hsame | ⟨-, hhalt⟩ := onward_cases h name
  · exact hsame.ge
  · rw [hhalt]
    exact (Nat.le_succ i).trans (le_halt legs (i + 1))

/-- Where an instance is that has been run and then resumed with these events. -/
def reached (legs : List Leg) (evs : List Event) : Nat :=
  evs.foldl (fun i ev => onward legs i ev.name) (halt legs 0)

theorem reached_concat (legs : List Leg) (evs : List Event) (ev : Event) :
    reached legs (evs ++ [ev]) = onward legs (reached legs evs) ev.name := by
  simp [reached]

theorem isHalt_reached (legs : List Leg) (evs : List Event) : IsHalt legs (reached legs evs) := by
  induction evs using List.reverseRecOn with
  | nil => exact isHalt_halt (Nat.zero_le _)
  | append_singleton evs ev ih =>
    rw [reached_concat]
    exact isHalt_onward ih ev.name

/-- The first of the steps that go on up to what is reached, and the others. -/
theorem proceeding_halt (legs : List Leg) (i : Nat) :
    Deed.proceeding i (halt legs (i + 1) - i) =
      Deed.proceeding i 1 ++ Deed.proceeding (i + 1) (halt legs (i + 1) - (i + 1)) := by
  obtain ⟨n, hn⟩ := Nat.exists_eq_add_of_le (le_halt legs (i + 1))
  have hfirst : halt legs (i + 1) - i = n + 1 := by omega
  have hrest : halt legs (i + 1) - (i + 1) = n := by omega
  rw [hfirst, hrest]
  rfl

/-- The deeds of a run that has got to an index: it parks there, or completes. -/
def arrival (legs : List Leg) (inst workflow : String) (j : Nat) (output : Option Json) :
    List Deed :=
  match legs[j]? with
  | some (.await event _) => Deed.parking inst workflow j ("waiting for event " ++ ticked event)
  | _ => Deed.completing inst workflow output

/-- The deeds of a run from an index to another one. -/
def journey (legs : List Leg) (inst workflow : String) (i j : Nat) (output : Option Json) :
    List Deed :=
  .started i :: (Deed.proceeding i (j - i) ++ arrival legs inst workflow j output)

end Leg

namespace Definition.IsStraight

variable {D : Definition} {legs : List Leg} {i : Nat} {c c' : Context} {o : Outcome}
  {event : String} {key : Option String}

theorem length_eq (h : D.IsStraight legs) : legs.length = D.size :=
  (List.Forall₂.length_eq h).symm

theorem step (h : D.IsStraight legs) {leg : Leg} (hleg : legs[i]? = some leg) {s : Step}
    (hs : D.step? i = some s) : s.Takes leg := by
  obtain ⟨hi, rfl⟩ := List.getElem?_eq_some_iff.1 hleg
  obtain ⟨hi', rfl⟩ := List.getElem?_eq_some_iff.1 hs
  exact List.Forall₂.get h hi' hi

/-- A leg that goes on does so, and leaves the event alone. -/
theorem returns_act (h : D.IsStraight legs) (hleg : legs[i]? = some .act)
    (hr : D.Returns i c o c') : o = .proceed ∧ c'.event = c.event := by
  obtain ⟨s, hs, hleaves⟩ := hr
  exact (h.step hleg hs c _ hleaves).1 c' o rfl

/-- A leg that awaits an event takes it, and its payload, or asks to wait for it. -/
theorem returns_await (h : D.IsStraight legs) (hleg : legs[i]? = some (.await event key))
    (hr : D.Returns i c o c') :
    (∃ ev, c.event = some ev ∧ ev.name = event ∧ o = .proceed ∧
        c' = c.keep (key.getD event) ev.payload) ∨
      (∀ ev, c.event = some ev → ev.name ≠ event) ∧
        o = .wait ("waiting for event " ++ ticked event) ∧ c' = c := by
  obtain ⟨s, hs, hleaves⟩ := hr
  have hstep : s.execute = (Step.waitForEvent event key).execute := h.step hleg hs
  rw [hstep] at hleaves
  cases hevent : c.event with
  | none =>
    have hexecute : (Step.waitForEvent event key).execute c =
        .finish c (.wait ("waiting for event " ++ ticked event)) := by
      simp [Step.waitForEvent, Context.takeEvent, hevent]
    rw [hexecute] at hleaves
    obtain ⟨rfl, rfl⟩ := Behaviour.finish.inj (Behaviour.eq_of_leaves_finish hleaves)
    exact .inr ⟨by simp, rfl, rfl⟩
  | some ev =>
    by_cases hname : ev.name = event
    · subst hname
      rw [Step.execute_waitForEvent hevent] at hleaves
      obtain ⟨rfl, rfl⟩ := Behaviour.finish.inj (Behaviour.eq_of_leaves_finish hleaves)
      exact .inl ⟨ev, rfl, rfl, rfl, rfl⟩
    · have hexecute : (Step.waitForEvent event key).execute c =
          .finish c (.wait ("waiting for event " ++ ticked event)) := by
        simp [Step.waitForEvent, Context.takeEvent, hevent, hname]
      rw [hexecute] at hleaves
      obtain ⟨rfl, rfl⟩ := Behaviour.finish.inj (Behaviour.eq_of_leaves_finish hleaves)
      exact .inr ⟨fun ev' hev' => by cases hev'; exact hname, rfl, rfl⟩

/-- No step of a straight definition panics. -/
theorem not_panic (h : D.IsStraight legs) {p : Panic} : ¬ D.Within i c (.panic c' p) := by
  rintro ⟨s, hs, hleaves⟩
  have hi : i < legs.length := h.length_eq ▸ Within.lt_size ⟨s, hs, hleaves⟩
  have htakes := h.step (List.getElem?_eq_getElem hi) hs
  cases hleg : legs[i] with
  | act =>
    rw [hleg] at htakes
    exact (htakes c _ hleaves).2 c' p rfl
  | await event key =>
    rw [hleg] at htakes
    have hexecute : ∃ c'' o, s.execute c = .finish c'' o := by
      rw [show s.execute = _ from htakes]
      simp only [Step.waitForEvent]
      split <;> exact ⟨_, _, rfl⟩
    obtain ⟨c'', o, hexecute⟩ := hexecute
    rw [hexecute] at hleaves
    cases Behaviour.eq_of_leaves_finish hleaves

end Definition.IsStraight

namespace Shifts

variable {D : Definition} {x : String} {st : Option (Chain × Phase)} {p p' : Nat}
  {l : List (Chain × Deed)} {c : Chain} {i : Nat} {legs : List Leg} {event : String}
  {key : Option String}

/-- A step that does not panic returns before the chain is gone, and its plan comes next. -/
theorem returned (h : Shifts D x (some (c, .within i)) p l none p')
    (hcalm : ∀ d ∈ l, d.2.isMishap = false) (hpanic : ∀ d ∈ l, d.2.isPanic = false) :
    ∃ o context l' now, l = (c, .returned i o) :: l' ∧
      c.definition.Returns i c.context o context ∧
      ∀ plan, Plan.ofOutcome c.definition context i now o = .ok plan →
        Shifts D x (some ({ c with context }, .acting plan)) p l' none p' := by
  obtain ⟨-, hnone, -⟩ | ⟨ds, l', st₁, p₁, rfl, hs, hne, h'⟩ := h.head
  · cases hnone
  have hcalm' : ∀ d ∈ l', d.2.isMishap = false := fun d hd => hcalm d (List.mem_append_right _ hd)
  cases hs with
  | still => exact absurd ⟨rfl, rfl⟩ hne
  | go hgo =>
    cases hgo with
    | @heed _ o now plan context hr hplan =>
      refine ⟨o, context, l', now, rfl, hr, fun plan' hplan' => ?_⟩
      obtain rfl := Except.ok.inj (hplan.symm.trans hplan')
      exact h'
    | @misjump _ o now fault context hr hplan =>
      refine ⟨o, context, l', now, rfl, hr, fun plan' hplan' => ?_⟩
      cases hplan.symm.trans hplan'
    | abort => exact (h'.not_cancelled hcalm' (by simp)).elim
  | ended hd =>
    cases hd with
    | panic => cases hpanic _ List.mem_cons_self
    | lose => cases hcalm _ List.mem_cons_self

/-- A chain that has got behind the last step completes. -/
theorem completes (h : Shifts D x (some (c, .entering i)) p l none p')
    (hcalm : ∀ d ∈ l, d.2.isMishap = false) (honce : ∀ d ∈ l, d.2.isStart = false)
    (hD : c.definition = D) (hx : c.inst = x) (hi : D.size ≤ i) :
    l.map Prod.snd = Deed.completing x D.name c.context.output ∧ p' = p := by
  obtain ⟨-, hnone, -⟩ | ⟨ds, l', st₁, p₁, rfl, hs, hne, h'⟩ := h.head
  · cases hnone
  have hcalm' : ∀ d ∈ l', d.2.isMishap = false := fun d hd => hcalm d (List.mem_append_right _ hd)
  cases hs with
  | still => exact absurd ⟨rfl, rfl⟩ hne
  | go hgo =>
    cases hgo with
    | execute hlt => exact absurd hi (by rw [← hD]; exact Nat.not_le.2 hlt)
    | pass =>
      obtain ⟨hlast, -, hposition⟩ :=
        h'.finale hcalm' (by simp) fun d hd => honce d (List.mem_append_right _ hd)
      refine ⟨?_, hposition⟩
      rw [List.map_append, hlast, ← hx, ← hD]
      rfl
    | withdraw => exact (h'.not_cancelled hcalm' (by simp)).elim
  | ended hd => cases hd; cases hcalm _ List.mem_cons_self

/-- A step that goes on is executed and put on record. -/
theorem passes (h : Shifts D x (some (c, .within i)) p l none p')
    (hcalm : ∀ d ∈ l, d.2.isMishap = false) (hpanic : ∀ d ∈ l, d.2.isPanic = false)
    (hgoes : ∀ o c', c.definition.Returns i c.context o c' → o = .proceed) :
    ∃ c' context l', l.map Prod.snd =
        .returned i .proceed :: .saved (i + 1) :: l'.map Prod.snd ∧ (∀ d ∈ l', d ∈ l) ∧
      c.definition.Returns i c.context .proceed context ∧ c'.context = context ∧
      c'.definition = c.definition ∧ Shifts D x (some (c', .entering (i + 1))) (i + 1) l' none p' := by
  obtain ⟨o, context, l₁, now, rfl, hr, hplan⟩ := h.returned hcalm hpanic
  obtain rfl := hgoes o context hr
  have hcalm₁ := (List.forall_mem_cons.1 hcalm).2
  obtain ⟨c', l', rfl, hcontext, hdefinition, h'⟩ := (hplan _ rfl).advances hcalm₁ (by simp)
  exact ⟨c', context, l', rfl, fun d hd => by simp [hd], hr, hcontext, hdefinition, h'⟩

section

variable (hstraight : D.IsStraight legs) (hcalm : ∀ d ∈ l, d.2.isMishap = false)
  (honce : ∀ d ∈ l, d.2.isStart = false) (hpanic : ∀ d ∈ l, d.2.isPanic = false)
  (hD : c.definition = D) (hx : c.inst = x)

include hstraight hcalm honce hpanic hD hx

/-- **A leg that awaits another event than the one that is there parks the chain.** -/
theorem parks (h : Shifts D x (some (c, .entering i)) i l none p')
    (hleg : legs[i]? = some (.await event key))
    (hevent : ∀ ev, c.context.event = some ev → ev.name ≠ event) :
    l.map Prod.snd = Deed.parking x D.name i ("waiting for event " ++ ticked event) ∧ p' = i := by
  subst hD
  have hi : i < c.definition.size := hstraight.length_eq ▸ (List.getElem?_eq_some_iff.1 hleg).1
  obtain ⟨l₁, rfl, h₁⟩ := h.executes hcalm (by simp) hi
  have hcalm₁ := (List.forall_mem_cons.1 hcalm).2
  obtain ⟨o, context, l₂, now, rfl, hr, hplan⟩ :=
    h₁.returned hcalm₁ (List.forall_mem_cons.1 hpanic).2
  obtain ⟨ev, hev, hname, -⟩ | ⟨-, rfl, rfl⟩ := hstraight.returns_await hleg hr
  · exact absurd hname (hevent ev hev)
  have honce₂ := (List.forall_mem_cons.1 (List.forall_mem_cons.1 honce).2).2
  obtain ⟨hlast, -, hposition⟩ :=
    (hplan _ rfl).finale (List.forall_mem_cons.1 hcalm₁).2 (by simp) honce₂
  refine ⟨?_, hposition⟩
  rw [List.map_cons, List.map_cons, hlast, ← hx]
  rfl

/-- **A leg that goes on is done, and the next one comes.** -/
theorem strides (h : Shifts D x (some (c, .entering i)) i l none p')
    (hloyal : D.IsLoyal) (hi : i < D.size)
    (hgoes : ∀ o c', D.Returns i c.context o c' → o = .proceed) :
    ∃ c' l', l.map Prod.snd = Deed.proceeding i 1 ++ l'.map Prod.snd ∧ (∀ d ∈ l', d ∈ l) ∧
      D.Returns i c.context .proceed c'.context ∧ c'.definition = D ∧ c'.inst = x ∧
      Shifts D x (some (c', .entering (i + 1))) (i + 1) l' none p' := by
  subst hD
  obtain ⟨l₁, rfl, h₁⟩ := h.executes hcalm (by simp) hi
  obtain ⟨c', context, l', hl', hsub, hr, rfl, hdefinition, h'⟩ :=
    h₁.passes (List.forall_mem_cons.1 hcalm).2 (List.forall_mem_cons.1 hpanic).2 hgoes
  refine ⟨c', l', ?_, fun d hd => List.mem_cons_of_mem _ (hsub d hd), hr, hdefinition,
    (hloyal.inst_eq hr).trans hx, h'⟩
  rw [List.map_cons, hl']
  rfl

/-- **A chain without an event does the legs up to the next one that awaits an event, one after the
other**, and parks there, or it completes. -/
theorem marches (h : Shifts D x (some (c, .entering i)) i l none p') (hloyal : D.IsLoyal)
    (hi : i ≤ D.size) (hevent : c.context.event = none) :
    ∃ output, l.map Prod.snd = Deed.proceeding i (Leg.halt legs i - i) ++
        Leg.arrival legs x D.name (Leg.halt legs i) output ∧ p' = Leg.halt legs i := by
  induction hn : D.size - i generalizing c i l with
  | zero =>
    have hsize : D.size ≤ i := by omega
    have hend : legs.length ≤ i := hstraight.length_eq ▸ hsize
    obtain ⟨hlast, rfl⟩ := h.completes hcalm honce hD hx hsize
    refine ⟨c.context.output, ?_, (Leg.halt_of_le hend).symm⟩
    simp [hlast, Leg.halt_of_le hend, Leg.arrival, List.getElem?_eq_none hend, Deed.proceeding]
  | succ n ih =>
    have hlt : i < legs.length := by
      rw [hstraight.length_eq]
      omega
    have hleg : legs[i]? = some legs[i] := List.getElem?_eq_getElem hlt
    generalize legs[i] = leg at hleg
    cases leg with
    | await event key =>
      obtain ⟨hparks, rfl⟩ := h.parks hstraight hcalm honce hpanic hD hx hleg (by simp [hevent])
      refine ⟨none, ?_, (Leg.halt_of_await hleg).symm⟩
      simp [hparks, Leg.halt_of_await hleg, Leg.arrival, hleg, Deed.proceeding]
    | act =>
      obtain ⟨c', l', hl', hsub, hr, hD', hx', h'⟩ := h.strides hstraight hcalm honce hpanic hD hx
        hloyal (by omega) fun o c' hr => (hstraight.returns_act hleg hr).1
      have hevent' : c'.context.event = none := (hstraight.returns_act hleg hr).2.trans hevent
      obtain ⟨output, hdeeds, hposition⟩ := ih (fun d hd => hcalm d (hsub d hd))
        (fun d hd => honce d (hsub d hd)) (fun d hd => hpanic d (hsub d hd)) hD' hx' h' (by omega)
        hevent' (by omega)
      rw [Leg.halt_of_act hleg]
      refine ⟨output, ?_, hposition⟩
      rw [hl', hdeeds, Leg.proceeding_halt, List.append_assoc]

/-- **An event leads from the leg that awaits it to the next one that awaits an event**, or to the
end; another one leads nowhere. -/
theorem goes_onward (h : Shifts D x (some (c, .entering i)) i l none p') (hloyal : D.IsLoyal)
    (hi : Leg.IsHalt legs i) {ev : Event}
    (hevent : c.context.event = some ev) :
    ∃ output, l.map Prod.snd = Deed.proceeding i (Leg.onward legs i ev.name - i) ++
        Leg.arrival legs x D.name (Leg.onward legs i ev.name) output ∧
      p' = Leg.onward legs i ev.name := by
  obtain ⟨event, key, hleg⟩ | rfl := hi
  · by_cases hname : ev.name = event
    · subst hname
      have hgoes : ∀ o c', D.Returns i c.context o c' →
          o = .proceed ∧ c' = c.context.keep (key.getD ev.name) ev.payload := by
        intro o c' hr
        obtain ⟨ev', hev', -, ho, hc'⟩ | ⟨hne, -⟩ := hstraight.returns_await hleg hr
        · obtain rfl := Option.some.inj (hevent.symm.trans hev')
          exact ⟨ho, hc'⟩
        · exact absurd rfl (hne ev hevent)
      have hlt : i < D.size := hstraight.length_eq ▸ (List.getElem?_eq_some_iff.1 hleg).1
      obtain ⟨c', l', hl', hsub, hr, hD', hx', h'⟩ := h.strides hstraight hcalm honce hpanic hD hx
        hloyal hlt fun o c' hr => (hgoes o c' hr).1
      have hevent' : c'.context.event = none := by
        rw [(hgoes _ _ hr).2]
        rfl
      obtain ⟨output, hdeeds, hposition⟩ := h'.marches hstraight (fun d hd => hcalm d (hsub d hd))
        (fun d hd => honce d (hsub d hd)) (fun d hd => hpanic d (hsub d hd)) hD' hx' hloyal hlt
        hevent'
      rw [Leg.onward_of_eq hleg]
      refine ⟨output, ?_, hposition⟩
      rw [hl', hdeeds, Leg.proceeding_halt, List.append_assoc]
    · obtain ⟨hparks, rfl⟩ := h.parks hstraight hcalm honce hpanic hD hx hleg fun ev' hev' => by
        cases hevent.symm.trans hev'
        exact hname
      rw [Leg.onward_of_ne hleg hname]
      refine ⟨none, ?_, rfl⟩
      simp [hparks, Leg.arrival, hleg, Deed.proceeding]
  · obtain ⟨hlast, rfl⟩ := h.completes hcalm honce hD hx hstraight.length_eq.ge
    rw [Leg.onward_of_le le_rfl]
    refine ⟨c.context.output, ?_, rfl⟩
    simp [hlast, Leg.arrival, Deed.proceeding]

end

end Shifts

/-! ## How often steps are executed -/

namespace Deed

variable {legs : List Leg} {p n : Nat} {l ds : List Deed} {d : Deed}

/-- Of the legs that go on, those before the position have been executed once, and no later one has;
the one at the position may have been executed, too. -/
def IsOrderly (legs : List Leg) (p : Nat) (l : List Deed) : Prop :=
  ∀ i, legs[i]? = some .act →
    (i < position p l → (executions l).count i = 1) ∧
    (position p l < i → (executions l).count i = 0) ∧ (executions l).count i ≤ 1

/-- Whatever has been done so far, the legs that go on have been executed in that way. -/
structure Advances (legs : List Leg) (p : Nat) (l : List Deed) : Prop where
  orderly : ∀ l', l' <+: l → IsOrderly legs p l'
  even : ∀ i, legs[i]? = some .act →
    (executions l).count i = if i < position p l then 1 else 0

theorem executions_concat (l : List Deed) (d : Deed) (i : Nat) :
    (executions (l ++ [d])).count i = (executions l).count i + (executions [d]).count i := by
  rw [executions_append, List.count_append]

theorem position_concat (p : Nat) (l : List Deed) (d : Deed) :
    position p (l ++ [d]) = position (position p l) [d] :=
  position_append p l [d]

theorem executions_executed (i j : Nat) :
    (executions [.executed j]).count i = if i = j then 1 else 0 := by
  by_cases h : i = j
  · subst h
    simp [executions, index?]
  · simp [executions, index?, h, Ne.symm h]

namespace Advances

theorem nil : Advances legs 0 [] where
  orderly l' hl' := by
    obtain rfl := List.prefix_nil.1 hl'
    exact fun i _ => ⟨fun hi => absurd hi (Nat.not_lt_zero i), fun _ => rfl, Nat.zero_le 1⟩
  even i _ := (if_neg (Nat.not_lt_zero i)).symm

theorem isOrderly (h : Advances legs p l) : IsOrderly legs p l := h.orderly l (List.prefix_refl l)

/-- A deed that neither executes a leg that goes on nor moves the position. -/
theorem idle (h : Advances legs p l)
    (hd : ∀ i, legs[i]? = some .act → (executions [d]).count i = 0)
    (hposition : position (position p l) [d] = position p l) : Advances legs p (l ++ [d]) where
  orderly l' hl' := by
    obtain rfl | hl' := List.prefix_concat_iff.1 hl'
    · intro i hi
      rw [executions_concat, hd i hi, position_concat, hposition]
      exact h.isOrderly i hi
    · exact h.orderly l' hl'
  even i hi := by
    rw [executions_concat, hd i hi, position_concat, hposition]
    exact h.even i hi

theorem idles (h : Advances legs p l)
    (hds : ∀ d ∈ ds, (∀ i, legs[i]? = some .act → (executions [d]).count i = 0) ∧
      position (position p l) [d] = position p l) :
    Advances legs p (l ++ ds) ∧ position p (l ++ ds) = position p l := by
  induction ds generalizing l with
  | nil =>
    rw [List.append_nil]
    exact ⟨h, rfl⟩
  | cons d ds ih =>
    obtain ⟨hd, hds⟩ := List.forall_mem_cons.1 hds
    have hposition : position p (l ++ [d]) = position p l := (position_concat p l d).trans hd.2
    obtain ⟨hrest, hsame⟩ := ih (h.idle hd.1 hd.2) fun d' hd' => by
      rw [hposition]
      exact hds d' hd'
    rw [List.append_cons]
    exact ⟨hrest, hsame.trans hposition⟩

/-- That the step at the position has been executed once more leaves the order, before and after that
is saved. -/
theorem isOrderly_of_count (h : Advances legs p l) {l' : List Deed} {q : Nat}
    (hq : position p l = q) (hposition : position p l' = q ∨ position p l' = q + 1)
    (hcount : ∀ i, (executions l').count i = (executions l).count i + if i = q then 1 else 0) :
    IsOrderly legs p l' := by
  intro i hi
  have heven := h.even i hi
  rw [hq] at heven
  rw [hcount, heven]
  obtain hposition | hposition := hposition <;>
  · rw [hposition]
    grind

/-- A step that goes on is executed, and then the position is behind it. -/
theorem stride (h : Advances legs p l) {q : Nat} (hq : position p l = q) :
    Advances legs p (l ++ Deed.proceeding q 1) ∧
      position p (l ++ Deed.proceeding q 1) = q + 1 := by
  have hcount : ∀ i, (executions (l ++ [.executed q])).count i =
      (executions l).count i + if i = q then 1 else 0 := fun i => by
    rw [executions_concat, executions_executed]
  have hcount' : ∀ i, (executions (l ++ [.executed q] ++ [.returned q .proceed])).count i =
      (executions l).count i + if i = q then 1 else 0 := fun i => by
    rw [executions_concat, hcount]
    rfl
  have hcount'' : ∀ i,
      (executions (l ++ [.executed q] ++ [.returned q .proceed] ++ [.saved (q + 1)])).count i =
        (executions l).count i + if i = q then 1 else 0 := fun i => by
    rw [executions_concat, hcount']
    rfl
  have hexecuted : position p (l ++ [.executed q]) = q := (position_concat ..).trans hq
  have hreturned : position p (l ++ [.executed q] ++ [.returned q .proceed]) = q :=
    (position_concat ..).trans hexecuted
  have hsaved : position p (l ++ [.executed q] ++ [.returned q .proceed] ++ [.saved (q + 1)]) =
      q + 1 := position_concat ..
  have hsplit : l ++ Deed.proceeding q 1 =
      l ++ [.executed q] ++ [.returned q .proceed] ++ [.saved (q + 1)] := by simp [Deed.proceeding]
  rw [hsplit]
  refine ⟨⟨fun l' hl' => ?_, fun i hi => ?_⟩, hsaved⟩
  · obtain rfl | hl' := List.prefix_concat_iff.1 hl'
    · exact h.isOrderly_of_count hq (.inr hsaved) hcount''
    obtain rfl | hl' := List.prefix_concat_iff.1 hl'
    · exact h.isOrderly_of_count hq (.inl hreturned) hcount'
    obtain rfl | hl' := List.prefix_concat_iff.1 hl'
    · exact h.isOrderly_of_count hq (.inl hexecuted) hcount
    · exact h.orderly l' hl'
  · rw [hcount'', hsaved, h.even i hi, hq]
    grind

/-- So it is for a number of steps that go on. -/
theorem proceeding (h : Advances legs p l) {q : Nat} (hq : position p l = q) (n : Nat) :
    Advances legs p (l ++ Deed.proceeding q n) ∧
      position p (l ++ Deed.proceeding q n) = q + n := by
  induction n generalizing l q with
  | zero =>
    rw [Deed.proceeding, List.append_nil]
    exact ⟨h, hq⟩
  | succ n ih =>
    obtain ⟨hfirst, hposition⟩ := h.stride hq
    obtain ⟨hrest, hlast⟩ := ih hfirst hposition
    rw [List.append_assoc] at hrest hlast
    exact ⟨hrest, hlast.trans (by omega)⟩

/-- To park or to complete executes no leg that goes on, and does not move the position. -/
theorem arrival (h : Advances legs p l) {q : Nat} (hq : position p l = q) (x workflow : String)
    (output : Option Json) :
    Advances legs p (l ++ Leg.arrival legs x workflow q output) ∧
      position p (l ++ Leg.arrival legs x workflow q output) = q := by
  subst hq
  refine h.idles fun d hd => ?_
  unfold Leg.arrival at hd
  split at hd
  · rename_i event key hleg
    simp only [Deed.parking, List.mem_cons, List.not_mem_nil, or_false] at hd
    obtain rfl | hd := hd
    · refine ⟨fun i hi => ?_, rfl⟩
      rw [executions_executed]
      refine if_neg fun heq => ?_
      rw [heq, hleg] at hi
      cases hi
    · obtain rfl | rfl | rfl | rfl | rfl := hd <;> exact ⟨fun _ _ => rfl, rfl⟩
  · simp only [Deed.completing, List.mem_cons, List.not_mem_nil, or_false] at hd
    obtain rfl | rfl | rfl | rfl := hd <;> exact ⟨fun _ _ => rfl, rfl⟩

/-- **A run from the position to a later index keeps the order**, and then the position is that
index. -/
theorem journey (h : Advances legs p l) {q j : Nat} (hq : position p l = q) (hle : q ≤ j)
    (x workflow : String) (output : Option Json) :
    Advances legs p (l ++ Leg.journey legs x workflow q j output) ∧
      position p (l ++ Leg.journey legs x workflow q j output) = j := by
  obtain ⟨n, rfl⟩ := Nat.exists_eq_add_of_le hle
  obtain ⟨hstart, hstarted⟩ : Advances legs p (l ++ [.started q]) ∧
      position p (l ++ [.started q]) = position p l := h.idles fun d hd => by
    obtain rfl := List.mem_singleton.1 hd
    exact ⟨fun _ _ => rfl, rfl⟩
  obtain ⟨hway, hposition⟩ := hstart.proceeding (hstarted.trans hq) n
  have hend := hway.arrival hposition x workflow output
  rw [Leg.journey, Nat.add_sub_cancel_left]
  simpa using hend

end Advances

end Deed

end DurableFlow
