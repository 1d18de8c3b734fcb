import DurableFlow.Proofs.Events.StraightDefinitions
import DurableFlow.Proofs.Histories.StoredRecords

/-!
# Instances that are resumed again and again

An instance of a straight definition is run, and then resumed with one event after the other. Each of
these calls does the legs from the position of the instance to where the event leads, and stops there
(`Engine.Call.goes`, `Engine.Call.returns`); so the position is at any time what the itinerary makes
of the events so far, and the legs are done one after the other, each of them once
(`Engine.Resumes.moves_on`).

The definition has to have a leg. An instance of an empty one completes without a position being
saved, so that nobody finds it afterwards (`ResumedTwice.forgotten`).
-/

namespace DurableFlow

/-! ## What is done on a journey -/

/-- Whether a leg that awaits an event has gone on: an event has satisfied it. -/
def Deed.satisfies (legs : List Leg) : Deed → Bool
  | .returned i .proceed =>
    match legs[i]? with
    | some (.await _ _) => true
    | _ => false
  | _ => false

namespace Leg

variable {legs : List Leg} {i j n : Nat} {x workflow : String} {output : Option Json} {d : Deed}

/-- What is told about an instance that has got to an index. -/
def report (legs : List Leg) (x : String) (j : Nat) (output : Option Json) : RunResult :=
  match legs[j]? with
  | some (.await _ _) => ⟨x, .waiting, none⟩
  | _ => ⟨x, .completed, output⟩

theorem report_eq (h : IsHalt legs j) : report legs x j output =
    if j = legs.length then ⟨x, .completed, output⟩ else ⟨x, .waiting, none⟩ := by
  obtain ⟨event, key, hleg⟩ | rfl := h
  · have hlt := (List.getElem?_eq_some_iff.1 hleg).1
    simp [report, hleg, hlt.ne]
  · simp [report]

theorem mem_journey (h : d ∈ journey legs x workflow i j output) :
    d = .started i ∨ d ∈ Deed.proceeding i (j - i) ∨ d ∈ arrival legs x workflow j output := by
  simpa [journey] using h

theorem stopped_mem_journey {result : RunResult}
    (h : .stopped result ∈ journey legs x workflow i j output) : result = report legs x j output := by
  obtain h | h | h := mem_journey h
  · cases h
  · obtain ⟨k, h | h | h⟩ := Deed.mem_proceeding h <;> cases h
  · unfold arrival at h
    unfold report
    split at h
    · rename_i hleg
      simpa [Deed.parking, hleg] using h
    · simpa [Deed.completing] using h

theorem isExit_of_mem_journey (h : d ∈ journey legs x workflow i j output) : d.isExit = false := by
  obtain rfl | h | h := mem_journey h
  · rfl
  · obtain ⟨k, rfl | rfl | rfl⟩ := Deed.mem_proceeding h <;> rfl
  · unfold arrival at h
    split at h
    · simp only [Deed.parking, List.mem_cons, List.not_mem_nil, or_false] at h
      obtain rfl | rfl | rfl | rfl | rfl | rfl := h <;> rfl
    · simp only [Deed.completing, List.mem_cons, List.not_mem_nil, or_false] at h
      obtain rfl | rfl | rfl | rfl := h <;> rfl

/-- The first run of an instance saves a position, if there is a leg. -/
theorem exists_saved_mem_journey (hlegs : legs ≠ []) :
    ∃ next, .saved next ∈ journey legs x workflow 0 (halt legs 0) output := by
  cases hhalt : halt legs 0 with
  | zero =>
    obtain ⟨event, key, hleg⟩ | hend := isHalt_halt (Nat.zero_le legs.length)
    · rw [hhalt] at hleg
      exact ⟨0, by simp [journey, arrival, hleg, Deed.parking]⟩
    · exact absurd (List.length_eq_zero_iff.1 (hend.symm.trans hhalt)) hlegs
  | succ n => exact ⟨1, by simp [journey, Deed.proceeding]⟩

theorem satisfies_arrival (h : d ∈ arrival legs x workflow j output) :
    d.satisfies legs = false := by
  unfold arrival at h
  split at h
  · simp only [Deed.parking, List.mem_cons, List.not_mem_nil, or_false] at h
    obtain rfl | rfl | rfl | rfl | rfl | rfl := h <;> rfl
  · simp only [Deed.completing, List.mem_cons, List.not_mem_nil, or_false] at h
    obtain rfl | rfl | rfl | rfl := h <;> rfl

theorem countP_satisfies_proceeding (h : ∀ k, i ≤ k → k < i + n → legs[k]? = some .act) :
    (Deed.proceeding i n).countP (Deed.satisfies legs) = 0 := by
  induction n generalizing i with
  | zero => rfl
  | succ n ih =>
    have hact : legs[i]? = some .act := h i le_rfl (by omega)
    rw [Deed.proceeding, List.countP_cons_of_neg (by simp [Deed.satisfies]),
      List.countP_cons_of_neg (by simp [Deed.satisfies, hact]),
      List.countP_cons_of_neg (by simp [Deed.satisfies])]
    exact ih fun k hk hlt => h k (by omega) (by omega)

/-- **An event satisfies one leg at most**, namely the one that it leads past. -/
theorem countP_satisfies_journey (h : IsHalt legs i) (name : String) :
    (journey legs x workflow i (onward legs i name) output).countP (Deed.satisfies legs) =
      if onward legs i name = i then 0 else 1 := by
  have harrival : ∀ j, (arrival legs x workflow j output).countP (Deed.satisfies legs) = 0 := fun j =>
    List.countP_eq_zero.2 fun d hd => by simp [satisfies_arrival hd]
  rw [journey, List.countP_cons_of_neg (by simp [Deed.satisfies]), List.countP_append, harrival]
  obtain hsame | ⟨⟨key, hleg⟩, hhalt⟩ := onward_cases h name
  · simp [hsame, Deed.proceeding]
  · have hlt : i < halt legs (i + 1) := le_halt legs (i + 1)
    have hacts : ∀ k, i + 1 ≤ k → k < i + 1 + (halt legs (i + 1) - (i + 1)) →
        legs[k]? = some .act := fun k hk hlt' => act_of_lt_halt hk (by omega)
    rw [hhalt, if_neg hlt.ne', proceeding_halt, List.countP_append,
      countP_satisfies_proceeding hacts]
    simp [Deed.proceeding, Deed.satisfies, hleg]

/-- Where an event leads nowhere because everything is behind, no step is executed. -/
theorem executions_journey_end (hj : legs.length ≤ j) :
    Deed.executions (journey legs x workflow j j output) = [] := by
  simp [journey, arrival, List.getElem?_eq_none hj, Deed.proceeding, Deed.completing,
    Deed.executions, Deed.index?]

end Leg

namespace Engine

/-! ## Calls -/

/-- The act by which somebody runs an instance, or resumes it with an event, and the request that is
made by it. -/
inductive Asks (x : String) : Act → RunnerId → Request → Option Event → Prop
  | run {r token q} : Asks x (.run r token q) r q none
  | resume {r token workflow event} : Asks x (.resume r token workflow x event) r
      { workflow, inst := some x, event := some event } (some event)

/-- Somebody runs an instance without an event, or resumes it with one. The runner knows the
workflow, the request is for the instance and its context can be made up; it has the event, or none.
Nobody else runs the instance, nothing befalls it, the store answers whenever it is asked for the
position, and the call is not cut off. At last, nothing moves any more, and the run is over. -/
structure Call (e : Engine) (D : Definition) (x : String) (ev : Option Event) (as : List Act)
    (a : Act) (bs : List Act) : Prop where
  asks : ∃ r R q, Asks x a r q ev ∧ (e.after as).runners.get? r = some R ∧
    R.registry.find? q.workflow = some D ∧
    (seed r R D x q).result = .ok () ∧ (seed r R D x q).context.event = ev ∧
    ∀ b, b <+: bs → (e.after (as ++ [a] ++ b)).IsDoing (e.after as).next [.opening r q ev.isSome] →
      ((e.after (as ++ [a] ++ b)).identify q).1 = x
  spell : e.Spell D x (as ++ [a]) bs
  single : ((e.after (as ++ [a])).saga x bs).countP (fun d => d.2.isStart) ≤ 1
  stored : ∀ b, b <+: bs → ∃ p, ((e.after (as ++ [a] ++ b)).load x).2 = .ok p
  uncut : .cut (e.after as).next ∉ bs
  done : (e.after (as ++ [a] ++ bs)).IsDone x

variable {e : Engine} {D : Definition} {x : String} {legs : List Leg} {ev : Option Event}
  {as bs b : List Act} {a : Act} {r : RunnerId} {q : Request}

theorem act_asks (h : Asks x a r q ev) (m : Engine) :
    ∃ token, m.act a = (m.spawn token [.opening r q ev.isSome]).2 := by
  cases h with
  | @run r token q => exact ⟨token, rfl⟩
  | @resume r token => exact ⟨token, rfl⟩

/-- What is loaded of an instance that is on record. -/
theorem IsOnRecord.isSome {m : Engine} (h : m.IsOnRecord x) {p : Option Nat}
    (hload : (m.load x).2 = .ok p) : p.isSome = true := by
  obtain ⟨n, hn⟩ := h
  have hstored : (m.store.load x).2 = .ok p := hload
  rw [Store.load] at hstored
  split at hstored
  · cases hstored
  · rw [hn] at hstored
    cases hstored
    rfl

/-- Straight definitions do not panic. -/
theorem Course.not_panicked (h : e.Course D x as) (hstraight : D.IsStraight legs)
    {s : Chain × Deed} (hs : s ∈ e.saga x as) : s.2.isPanic = false := by
  obtain ⟨c, d⟩ := s
  obtain ⟨hmem, hx⟩ := List.mem_filter.1 hs
  obtain ⟨before, a, after, rfl, hdeed⟩ := exists_of_mem_chronicle hmem
  cases d with
  | panicked =>
    have hsound := (h.new.sound .any).after_any before
    obtain ⟨hchain, i, context, p, hwithin⟩ := hsound.within_of_panicked hdeed
    have hD := (h.hosts before (List.prefix_append _ _)).definition c hchain (beq_iff_eq.1 hx)
    exact absurd (hD ▸ hwithin) hstraight.not_panic
  | _ => rfl

/-- The position of an instance without a run is what the story of the runs to come makes of it. -/
theorem Course.position_eq (h : e.Course D x (as ++ bs)) (hidle : (e.after as).IsThrough x) :
    (e.after (as ++ bs)).position x =
      Deed.position ((e.after as).position x) ((e.after as).story x bs) := by
  obtain ⟨st, -, hst⟩ := h.left.shifts
  obtain rfl : st = none := by
    cases st with
    | none => rfl
    | some s =>
      obtain ⟨hmem, hinst⟩ := hst.mem_chains
      exact absurd hinst (hidle s.1 hmem)
  obtain ⟨st', hshifts, -⟩ := h.shifts_from hst
  exact hshifts.story.position_eq

namespace Call

/-- Only the task of the call is new when it begins. -/
theorem begun (h : e.Call D x ev as a bs) (hidle : (e.after as).IsThrough x) :
    (e.after (as ++ [a])).IsThrough x ∧
      (e.after (as ++ [a])).position x = (e.after as).position x := by
  obtain ⟨r, R, q, hasks, -⟩ := h.asks
  obtain ⟨token, hact⟩ := act_asks hasks (e.after as)
  rw [after_concat, hact]
  refine ⟨fun c hc => hidle c ?_, rfl⟩
  simpa [chains, frames, spawn, Frame.chain?] using hc

theorem through (h : e.Call D x ev as a bs) : (e.after (as ++ [a] ++ bs)).IsThrough x :=
  h.spell.course.new.isThrough_of_isDone h.done

/-- A call starts a chain at the position of the instance. -/
theorem starts (h : e.Call D x ev as a bs) (hidle : (e.after as).IsThrough x) {i : Nat}
    (hi : (e.after as).position x = i) (hrecord : ev.isSome = true → (e.after as).IsOnRecord x) :
    ∃ b₁ b₂ o c, bs = b₁ ++ b₂ ∧ (e.after (as ++ [a])).saga x b₁ = [(c, .started i)] ∧
      (e.after (as ++ [a] ++ b₁)).IsDoing (e.after as).next [.driving o c (.entering i)] ∧
      c.definition = D ∧ c.inst = x ∧ c.context.event = ev := by
  obtain ⟨hidle', hposition⟩ := h.begun hidle
  obtain ⟨r, R, q, hasks, hr, hD, hseed, hevent, hx⟩ := h.asks
  obtain ⟨token, hact⟩ := act_asks hasks (e.after as)
  have hopening : (e.after (as ++ [a])).IsDoing (e.after as).next [.opening r q ev.isSome] := by
    rw [after_concat, hact]
    exact ⟨_, List.mem_append_right _ List.mem_cons_self, rfl, rfl, rfl⟩
  have hloyal : q.IsLoyal := by
    have hmeets := h.spell.course.loyal a (by simp)
    cases hasks with
    | run => exact hmeets
    | resume => exact fun f hf => by cases hf
  have hstored : ∀ b, b <+: bs → ∃ p, ((e.after (as ++ [a] ++ b)).load x).2 = .ok p ∧
      (ev.isSome = true → p.isSome = true) := by
    intro b hb
    obtain ⟨p, hp⟩ := h.stored b hb
    refine ⟨p, hp, fun hsome => IsOnRecord.isSome ?_ hp⟩
    rw [List.append_assoc, after_append]
    exact files_after _ _ x (hrecord hsome)
  have hspell : e.Spell D x (as ++ [a]) ([] ++ bs) := h.spell
  obtain ⟨b₁, b₂, c, rfl, -, hstarted, hentering, hdefinition, hcontext, -⟩ :=
    hspell.begins h.single hidle' (h.spell.course.new.runner_stays as [a] hr) hD
      (by simpa using hx) hloyal hseed hstored h.uncut (by rwa [List.append_nil])
  rw [hposition, hi] at hstarted hentering
  exact ⟨b₁ ++ [.advance (e.after as).next], b₂, _, c, List.append_cons .., hstarted, hentering,
    hdefinition, by rw [Chain.inst, hcontext]; exact inst_seed hloyal r R D x,
    by rw [hcontext, hevent]⟩

/-- **A call does the legs from the position of the instance up to where the event leads**, and stops
there. -/
theorem goes (h : e.Call D x ev as a bs) (hstraight : D.IsStraight legs)
    (hidle : (e.after as).IsThrough x) {i : Nat} (hi : (e.after as).position x = i)
    (hle : i ≤ legs.length)
    (hevent : ev.isSome = true → (e.after as).IsOnRecord x ∧ Leg.IsHalt legs i) :
    ∃ output, (e.after (as ++ [a])).story x bs =
        Leg.journey legs x D.name i (Leg.target legs i ev) output ∧
      (e.after (as ++ [a] ++ bs)).position x = Leg.target legs i ev := by
  obtain ⟨hidle', hposition⟩ := h.begun hidle
  obtain ⟨b₁, b₂, o, c, rfl, hstarted, hentering, hdefinition, hinst, hcontext⟩ :=
    h.starts hidle hi fun hsome => (hevent hsome).1
  have hloyal : D.IsLoyal := hdefinition ▸ h.spell.later.isLoyal hentering
  have hcourse := h.spell.later.course
  have hposition' : (e.after (as ++ [a] ++ b₁)).position x = i := by
    rw [hcourse.left.position_eq hidle', ← map_snd_saga, hstarted, hposition, hi]
    rfl
  have hsaga : (e.after (as ++ [a])).saga x (b₁ ++ b₂) =
      (c, .started i) :: (e.after (as ++ [a] ++ b₁)).saga x b₂ := by
    rw [saga_append, hstarted, ← after_append]
    rfl
  -- The rest is what the chain does that the call has started, up to its end.
  obtain ⟨st, -, hst⟩ := hcourse.left.shifts
  obtain ⟨t, ht, -, -, hframes⟩ := hentering
  rw [hst.eq_of_frame ht (hframes ▸ List.mem_cons_self) hinst] at hst
  obtain ⟨st', hshifts, hst'⟩ := hcourse.shifts_from hst
  have hthrough := h.through
  rw [← List.append_assoc] at hthrough ⊢
  obtain rfl : st' = none := by
    cases st' with
    | none => rfl
    | some s => exact absurd hst'.mem_chains.2 (hthrough s.1 hst'.mem_chains.1)
  rw [hposition'] at hshifts
  have hcalm := h.spell.later.calm
  have hpanic : ∀ d ∈ (e.after (as ++ [a] ++ b₁)).saga x b₂, d.2.isPanic = false := by
    refine fun d hd => hcourse.not_panicked hstraight ?_
    rw [saga_append]
    exact List.mem_append_right _ hd
  have honce : ∀ d ∈ (e.after (as ++ [a] ++ b₁)).saga x b₂, d.2.isStart = false := by
    have hone := h.single
    rw [hsaga, List.countP_cons_of_pos rfl] at hone
    have hzero : ((e.after (as ++ [a] ++ b₁)).saga x b₂).countP (fun d => d.2.isStart) = 0 := by
      omega
    exact fun d hd => Bool.eq_false_iff.2 (List.countP_eq_zero.1 hzero d hd)
  obtain ⟨output, hdeeds, hlast⟩ : ∃ output, ((e.after (as ++ [a] ++ b₁)).saga x b₂).map Prod.snd =
      Deed.proceeding i (Leg.target legs i ev - i) ++
        Leg.arrival legs x D.name (Leg.target legs i ev) output ∧
      (e.after (as ++ [a] ++ b₁ ++ b₂)).position x = Leg.target legs i ev := by
    cases ev with
    | none =>
      exact hshifts.marches hstraight hcalm honce hpanic hdefinition hinst hloyal
        (hstraight.length_eq ▸ hle) hcontext
    | some ev =>
      exact hshifts.goes_onward hstraight hcalm honce hpanic hdefinition hinst hloyal
        (hevent rfl).2 hcontext
  refine ⟨output, ?_, hlast⟩
  rw [← map_snd_saga, hsaga, List.map_cons, hdeeds]
  rfl

/-- **The call that resumes an instance returns what has become of it.** -/
theorem returns {ev : Event} {i j : Nat} {output : Option Json} (h : e.Call D x (some ev) as a bs)
    (hidle : (e.after as).IsThrough x) (hi : (e.after as).position x = i)
    (hrecord : (e.after as).IsOnRecord x)
    (hstory : (e.after (as ++ [a])).story x bs = Leg.journey legs x D.name i j output) :
    ((e.after as).next, .returned (.ok (Leg.report legs x j output))) ∈
      (e.after (as ++ [a] ++ bs)).endings := by
  obtain ⟨r, R, q, hasks, hr, hD, -⟩ := h.asks
  cases hasks with
  | @resume _ token workflow =>
    -- A stack of one instance has no nested step, so that it does not matter which one is named.
    have hresumption : e.Resumption (fun _ => ⟨x, D, i, { workflow }⟩) 0 r ev as
        (.resume r token workflow x ev) bs :=
      { called := ⟨token, workflow, R, rfl, hr, hD, fun k hk => absurd hk (Nat.not_lt_zero k)⟩
        idle := fun _ _ => hidle
        parked := fun _ _ => hi
        spell := fun _ _ => h.spell
        single := fun _ _ => h.single
        stored := fun _ _ b hb => by
          obtain ⟨p, hp⟩ := h.stored b hb
          have hlater : (e.after (as ++ [.resume r token workflow x ev] ++ b)).IsOnRecord x := by
            rw [List.append_assoc, after_append]
            exact files_after _ _ x hrecord
          obtain ⟨p, rfl⟩ := Option.isSome_iff_exists.1 (hlater.isSome hp)
          exact ⟨p, hp⟩
        uncut := h.uncut }
    refine hresumption.call_returns (fun result hresult => ?_) (fun d hd => ?_) h.through
    · exact Leg.stopped_mem_journey (hstory ▸ hresult)
    · exact Leg.isExit_of_mem_journey (hstory ▸ hd)

/-- What is done for an instance up to the end of a call. -/
theorem story_eq {cs : List Act} (h : e.Call D x ev (as ++ bs) a cs) :
    (e.after as).story x (bs ++ ([a] ++ cs)) =
      (e.after as).story x bs ++ (e.after (as ++ bs ++ [a])).story x cs := by
  obtain ⟨r, R, q, hasks, -⟩ := h.asks
  have hnone : (e.after (as ++ bs)).saga x [a] = [] := by cases hasks <;> rfl
  rw [← map_snd_saga, ← map_snd_saga, ← map_snd_saga, saga_append, saga_append, ← after_append,
    ← after_append, hnone, List.nil_append, List.map_append]

/-- **A call leaves the steps that go on in order.** -/
theorem advances {cs : List Act} (h : e.Call D x ev (as ++ bs) a cs) {i j : Nat} (hij : i ≤ j)
    (hbefore : Deed.Advances legs 0 ((e.after as).story x bs))
    (hi : Deed.position 0 ((e.after as).story x bs) = i) {output : Option Json}
    (hstory : (e.after (as ++ bs ++ [a])).story x cs = Leg.journey legs x D.name i j output) :
    Deed.Advances legs 0 ((e.after as).story x (bs ++ ([a] ++ cs))) := by
  rw [h.story_eq, hstory]
  exact (hbefore.journey hi hij x D.name output).1

end Call

/-! ## One call after the other -/

/-- An instance is resumed with one event after the other. -/
inductive Resumes (e : Engine) (D : Definition) (x : String) (as : List Act) :
    List Event → List Act → Prop
  | nil : Resumes e D x as [] []
  | resume {evs bs ev a cs} (h : Resumes e D x as evs bs)
      (hcall : e.Call D x (some ev) (as ++ bs) a cs) :
      Resumes e D x as (evs ++ [ev]) (bs ++ ([a] ++ cs))

/-- An instance that has had its first run and has been resumed with these events since: it has no
run under way, its position is where the events have led, and the steps have been executed in
order. -/
structure Stands (e : Engine) (D : Definition) (x : String) (legs : List Leg) (as bs : List Act)
    (evs : List Event) : Prop where
  course : e.Course D x (as ++ bs)
  through : (e.after (as ++ bs)).IsThrough x
  onRecord : (e.after (as ++ bs)).IsOnRecord x
  position : (e.after (as ++ bs)).position x = Leg.reached legs evs
  advances : Deed.Advances legs 0 ((e.after as).story x bs)

section

variable (hstraight : D.IsStraight legs) (hidle : (e.after as).IsThrough x)
  (hzero : (e.after as).position x = 0)

include hstraight hidle hzero

/-- The first run does the legs up to the first one that awaits an event. -/
theorem Call.stands (h : e.Call D x none as a bs) (hlegs : legs ≠ []) :
    e.Stands D x legs as ([a] ++ bs) [] := by
  obtain ⟨output, hstory, hposition⟩ := h.goes hstraight hidle hzero (Nat.zero_le _) nofun
  have hfirst : e.Call D x none (as ++ []) a bs := by rwa [List.append_nil]
  refine ⟨?_, ?_, ?_, ?_, ?_⟩
  · rw [← List.append_assoc]
    exact h.spell.course
  · rw [← List.append_assoc]
    exact h.through
  · obtain ⟨next, hsaved⟩ : ∃ next, .saved next ∈
        Leg.journey legs x D.name 0 (Leg.halt legs 0) output := Leg.exists_saved_mem_journey hlegs
    rw [← List.append_assoc, after_append]
    exact isOnRecord_of_mem_story (hstory ▸ hsaved)
  · rw [← List.append_assoc]
    exact hposition
  · exact hfirst.advances (Nat.zero_le _) .nil rfl (by rwa [List.append_nil])

/-- Each further event leads on from where the instance is. -/
theorem Stands.resume {evs : List Event} {ev : Event} {cs : List Act}
    (h : e.Stands D x legs as bs evs) (hcall : e.Call D x (some ev) (as ++ bs) a cs) :
    e.Stands D x legs as (bs ++ ([a] ++ cs)) (evs ++ [ev]) ∧
      ∃ output, (e.after (as ++ bs ++ [a])).story x cs =
          Leg.journey legs x D.name (Leg.reached legs evs)
            (Leg.onward legs (Leg.reached legs evs) ev.name) output ∧
        ((e.after (as ++ bs)).next, .returned (.ok (Leg.report legs x
          (Leg.onward legs (Leg.reached legs evs) ev.name) output))) ∈
          (e.after (as ++ bs ++ [a] ++ cs)).endings := by
  have hhalt := Leg.isHalt_reached legs evs
  obtain ⟨output, hstory, hposition⟩ :=
    hcall.goes hstraight h.through h.position hhalt.le fun _ => ⟨h.onRecord, hhalt⟩
  have hbefore : Deed.position 0 ((e.after as).story x bs) = Leg.reached legs evs := by
    rw [← h.position, h.course.position_eq hidle, hzero]
  have hsplit : as ++ (bs ++ ([a] ++ cs)) = as ++ bs ++ [a] ++ cs := by simp
  refine ⟨⟨?_, ?_, ?_, ?_, ?_⟩, output, hstory,
    hcall.returns h.through h.position h.onRecord hstory⟩
  · rw [hsplit]
    exact hcall.spell.course
  · rw [hsplit]
    exact hcall.through
  · rw [hsplit, List.append_assoc, after_append]
    exact files_after _ _ x h.onRecord
  · rw [hsplit, Leg.reached_concat]
    exact hposition
  · exact hcall.advances (Leg.le_onward hhalt ev.name) h.advances hbefore hstory

/-- So an instance stands after its first run and any sequence of events. -/
theorem Resumes.stands {evs : List Event} {cs : List Act} (hrun : e.Call D x none as a bs)
    (hlegs : legs ≠ []) (h : e.Resumes D x (as ++ ([a] ++ bs)) evs cs) :
    e.Stands D x legs as ([a] ++ bs ++ cs) evs := by
  induction h with
  | nil =>
    rw [List.append_nil]
    exact hrun.stands hstraight hidle hzero hlegs
  | resume _ hcall ih =>
    rw [List.append_assoc as] at hcall
    rw [← List.append_assoc ([a] ++ bs)]
    exact (ih.resume hstraight hidle hzero hcall).1

omit hstraight in
/-- Of the legs that go on, those before the position have been done once, and those behind it have
not been done. -/
theorem Stands.isOrderly {evs : List Event} (h : e.Stands D x legs as bs evs) (hb : b <+: bs)
    {i : Nat} (hi : legs[i]? = some .act) :
    (i < (e.after (as ++ b)).position x →
        (Deed.executions ((e.after as).story x b)).count i = 1) ∧
      ((e.after (as ++ b)).position x < i →
        (Deed.executions ((e.after as).story x b)).count i = 0) ∧
      (Deed.executions ((e.after as).story x b)).count i ≤ 1 := by
  obtain ⟨cs, rfl⟩ := hb
  have hcourse := h.course
  rw [← List.append_assoc] at hcourse
  rw [hcourse.left.position_eq hidle, hzero]
  exact h.advances.orderly _ (((e.after as).saga_mono x (List.prefix_append b cs)).map Prod.snd) i hi

/-- **Waits advance one matching event at a time.** An instance of a straight definition is run
without an event, and then resumed with one event after the other, whatever their names. The first
run does the legs up to the first one that awaits an event, and parks there, or it completes. After
that the position is where the events have led. One more event leads from a leg that awaits an event
of its name past that leg, up to the next one that awaits an event or to the end, and any other event
leaves the position where it is. It satisfies one leg at most, and the call returns that the instance
waits, or that it has completed if the position is behind the last leg; if it has been there before,
no step is executed. At any time, of the legs that go on those before the position have been done
once, and those behind it have not been done. -/
theorem Resumes.moves_on {evs : List Event} {cs : List Act} (hrun : e.Call D x none as a bs)
    (hlegs : legs ≠ []) (h : e.Resumes D x (as ++ ([a] ++ bs)) evs cs) :
    ((e.after (as ++ ([a] ++ bs))).position x = Leg.halt legs 0 ∧
      ∃ output, (e.after (as ++ [a])).story x bs =
        Leg.journey legs x D.name 0 (Leg.halt legs 0) output) ∧
    (∀ b, b <+: [a] ++ bs ++ cs → ∀ i, legs[i]? = some .act →
      (i < (e.after (as ++ b)).position x →
        (Deed.executions ((e.after as).story x b)).count i = 1) ∧
      ((e.after (as ++ b)).position x < i →
        (Deed.executions ((e.after as).story x b)).count i = 0) ∧
      (Deed.executions ((e.after as).story x b)).count i ≤ 1) ∧
    (e.after (as ++ ([a] ++ bs ++ cs))).position x = Leg.reached legs evs ∧
    ∀ ev a' bs', e.Call D x (some ev) (as ++ ([a] ++ bs ++ cs)) a' bs' →
      ∃ j output, (e.after (as ++ ([a] ++ bs ++ cs) ++ [a'] ++ bs')).position x = j ∧
        ((∃ event key, legs[Leg.reached legs evs]? = some (.await event key) ∧
            j = if ev.name = event then Leg.halt legs (Leg.reached legs evs + 1)
              else Leg.reached legs evs) ∨
          Leg.reached legs evs = D.size ∧ j = D.size ∧
            Deed.executions ((e.after (as ++ ([a] ++ bs ++ cs) ++ [a'])).story x bs') = []) ∧
        ((e.after (as ++ ([a] ++ bs ++ cs) ++ [a'])).story x bs').countP (Deed.satisfies legs) =
          (if j = Leg.reached legs evs then 0 else 1) ∧
        ((e.after (as ++ ([a] ++ bs ++ cs))).next, .returned (.ok
            (if j = D.size then ⟨x, .completed, output⟩ else ⟨x, .waiting, none⟩))) ∈
          (e.after (as ++ ([a] ++ bs ++ cs) ++ [a'] ++ bs')).endings := by
  obtain ⟨output, hfirst, -⟩ := hrun.goes hstraight hidle hzero (Nat.zero_le _) nofun
  have hstands := h.stands hstraight hidle hzero hrun hlegs
  refine ⟨⟨(hrun.stands hstraight hidle hzero hlegs).position, output, hfirst⟩,
    fun b hb i hi => hstands.isOrderly hidle hzero hb hi, hstands.position,
    fun ev a' bs' hcall => ?_⟩
  obtain ⟨hafter, output', hstory, hreturned⟩ := hstands.resume hstraight hidle hzero hcall
  have hhalt := Leg.isHalt_reached legs evs
  have hposition := hafter.position
  rw [Leg.reached_concat, ← List.append_assoc as, ← List.append_assoc _ [a']] at hposition
  refine ⟨_, output', hposition, ?_, ?_, ?_⟩
  · obtain ⟨event, key, hleg⟩ | hend := hhalt
    · refine .inl ⟨event, key, hleg, ?_⟩
      simp only [Leg.onward, hleg]
    · rw [hstraight.length_eq] at hend
      have hsame : Leg.onward legs (Leg.reached legs evs) ev.name = Leg.reached legs evs :=
        Leg.onward_of_le (hstraight.length_eq.trans hend.symm).le
      refine .inr ⟨hend, hsame.trans hend, ?_⟩
      rw [hstory, hsame]
      exact Leg.executions_journey_end (hstraight.length_eq.trans hend.symm).le
  · rw [hstory, Leg.countP_satisfies_journey hhalt]
  · rw [← hstraight.length_eq, ← Leg.report_eq (Leg.isHalt_onward hhalt ev.name)]
    exact hreturned

end

end Engine

/-! ## A short journey -/

namespace ResumedTwice

def tour : Definition :=
  ⟨"tour", [.deciding fun _ => .proceed, .waitForEvent "go" (some "answer"),
    .deciding fun _ => .proceed, .waitForEvent "stop" none]⟩

def legs : List Leg := [.act, .await "go" (some "answer"), .act, .await "stop" none]

/-- A workflow without steps. -/
def empty : Definition := ⟨"empty", []⟩

def registry : Registry := ⟨(Table.empty.put "tour" tour).put "empty" empty⟩

def engine : Engine := { scheduler := { timers := { start := ⟨0⟩ } }, identity := fun _ => "" }

def before : List Act := [.addRunner registry .empty]

def run (workflow : String) : Act := .run ⟨0⟩ (.root 0) { workflow, inst := some "a" }

def resume (workflow name : String) : Act := .resume ⟨0⟩ (.root 0) workflow "a" ⟨name, .null⟩

/-- The instance is run up to the step that waits for the first event. -/
def setOff : List Act := .replicate 11 (.advance 2)

/-- It is resumed with that event, up to the step that waits for the second one. -/
def goOn : List Act := .replicate 15 (.advance 4)

/-- It is resumed with that one, too, and completes. -/
def arrive : List Act := .replicate 9 (.advance 6)

def history : List Act :=
  before ++ ([run "tour"] ++ setOff) ++ ([resume "tour" "go"] ++ goOn) ++
    ([resume "tour" "stop"] ++ arrive)

/-- An instance of the workflow without steps is run and resumed. -/
def setOffEmpty : List Act := .replicate 5 (.advance 2)

def goOnEmpty : List Act := .replicate 1 (.advance 4)

def historyEmpty : List Act :=
  before ++ ([run "empty"] ++ setOffEmpty) ++ ([resume "empty" "go"] ++ goOnEmpty)

theorem isStraight : tour.IsStraight legs := by
  have hgoes : (Step.deciding fun _ => .proceed).Takes .act := by
    intro c b hleaves
    have hfinish : (Step.deciding fun _ => .proceed).execute c = .finish c .proceed := rfl
    rw [hfinish] at hleaves
    obtain rfl := Behaviour.eq_of_leaves_finish hleaves
    exact ⟨fun c' o heq => by cases heq; exact ⟨rfl, rfl⟩, nofun⟩
  exact .cons hgoes (.cons rfl (.cons hgoes (.cons rfl .nil)))

theorem isLoyal : ∀ d ∈ [tour, empty], d.IsLoyal := by
  intro d hd s hs
  obtain rfl | rfl := List.mem_pair.1 hd
  · simp only [tour, List.mem_cons, List.not_mem_nil, or_false] at hs
    obtain rfl | rfl | rfl | rfl := hs
    exacts [Step.isLoyal_deciding _, Step.isLoyal_waitForEvent _ _, Step.isLoyal_deciding _,
      Step.isLoyal_waitForEvent _ _]
  · cases hs

theorem meets_registry {S : Standard} (h : ∀ d ∈ [tour, empty], S.definition d) :
    registry.Meets S :=
  (Registry.meets_empty.put _ (h tour (by simp))).put _ (h empty (by simp))

theorem course : engine.Course tour "a" history :=
  .of_among ⟨rfl, rfl, rfl, rfl⟩ (Act.forall_meets (meets_registry isLoyal) rfl)
    (Act.forall_meets (meets_registry fun _ hd => hd) rfl) (by simp [tour, empty])
    (by decide +kernel)

theorem courseEmpty : engine.Course empty "a" historyEmpty :=
  .of_among ⟨rfl, rfl, rfl, rfl⟩ (Act.forall_meets (meets_registry isLoyal) rfl)
    (Act.forall_meets (meets_registry fun _ hd => hd) rfl) (by simp [tour, empty])
    (by decide +kernel)

/-- What makes a call. -/
theorem call {D : Definition} {ev : Option Event} {as l : List Act} {a : Act} {k n : Nat}
    {R : Runner} {q : Request}
    (hcourse : engine.Course D "a" (as ++ [a] ++ .replicate k (.advance n) ++ l))
    (hasks : Engine.Asks "a" a ⟨0⟩ q ev) (hr : (engine.after as).runners.get? ⟨0⟩ = some R)
    (hD : R.registry.find? q.workflow = some D) (hinst : q.inst = some "a") (hinit : q.init = none)
    (hevent : q.event = ev)
    (hempty : (engine.after (as ++ [a] ++ .replicate k (.advance n))).tasks.isEmpty = true)
    (hfired : (engine.after (as ++ [a] ++ .replicate k (.advance n))).scheduler.continuations.isEmpty)
    (hcalm : ∀ d ∈ (engine.after (as ++ [a])).story "a" (.replicate k (.advance n)),
      d.isMishap = false)
    (hsingle : ((engine.after (as ++ [a])).saga "a" (.replicate k (.advance n))).countP
      (fun d => d.2.isStart) ≤ 1)
    (hstored : ∀ m < k + 1, ((engine.after (as ++ [a] ++ .replicate m (.advance n))).load
      "a").2.toOption.isSome = true) :
    engine.Call D "a" ev as a (.replicate k (.advance n)) := by
  have hrest : (engine.after (as ++ [a] ++ .replicate k (.advance n))).IsAtRest :=
    Engine.isAtRest_of_isEmpty hempty
  obtain ⟨-, hcontext, -⟩ := Engine.seed_context hinit ⟨0⟩ R D "a"
  refine ⟨⟨⟨0⟩, R, q, hasks, hr, hD, Engine.seed_result hinit _ R D _, hcontext.trans hevent,
    fun b _ _ => Engine.identify_of_inst hinst _⟩, ⟨hcourse.left, hrest, ?_⟩, hsingle, ?_, ?_, hrest,
    ?_, ?_⟩
  · exact fun d hd => hcalm d.2 (List.mem_map_of_mem hd)
  · intro b hb
    have hlength : b.length ≤ k := by simpa using hb.length_le
    have htold := hstored b.length (Nat.lt_succ_of_le hlength)
    rw [List.prefix_iff_eq_take.1 hb, List.take_replicate, min_eq_left hlength]
    generalize ((engine.after (as ++ [a] ++ .replicate b.length (.advance n))).load "a").2 = found
      at htold ⊢
    cases found with
    | error _ => cases htold
    | ok p => exact ⟨p, rfl⟩
  · intro hcut
    cases (List.mem_replicate.1 hcut).2
  · rw [List.isEmpty_iff.1 hfired]
    nofun
  · rw [List.isEmpty_iff.1 hempty]
    nofun

theorem first : engine.Call tour "a" none before (run "tour") setOff :=
  call (R := ⟨registry, .empty, ⟨1⟩⟩) course .run rfl rfl rfl rfl rfl (by decide +kernel)
    (by decide +kernel) (by decide +kernel) (by decide +kernel) (by decide +kernel)

theorem second : engine.Call tour "a" (some ⟨"go", .null⟩) (before ++ ([run "tour"] ++ setOff) ++ [])
    (resume "tour" "go") goOn :=
  call (R := ⟨registry, .empty, ⟨1⟩⟩) course .resume rfl rfl rfl rfl rfl (by decide +kernel)
    (by decide +kernel) (by decide +kernel) (by decide +kernel) (by decide +kernel)

theorem third : engine.Call tour "a" (some ⟨"stop", .null⟩)
    (before ++ ([run "tour"] ++ setOff ++ ([] ++ ([resume "tour" "go"] ++ goOn))))
    (resume "tour" "stop") arrive :=
  call (R := ⟨registry, .empty, ⟨1⟩⟩) (l := []) course .resume rfl rfl rfl rfl rfl
    (by decide +kernel) (by decide +kernel) (by decide +kernel) (by decide +kernel)
    (by decide +kernel)

/-- The first event leads to the step that waits for the second one, and that one to the end. -/
theorem arrived :
    (engine.after (before ++ ([run "tour"] ++ setOff ++
      ([] ++ ([resume "tour" "go"] ++ goOn))))).position "a" = 3 ∧
    ∃ output, (6, .returned (.ok ⟨"a", .completed, output⟩)) ∈ (engine.after (before ++
      ([run "tour"] ++ setOff ++ ([] ++ ([resume "tour" "go"] ++ goOn))) ++
        [resume "tour" "stop"] ++ arrive)).endings := by
  have hidle : (engine.after before).IsThrough "a" := fun c hc => by cases hc
  obtain ⟨-, -, hposition, hlater⟩ := (Engine.Resumes.resume .nil second).moves_on isStraight hidle
    rfl first (by simp [legs])
  obtain ⟨j, output, -, hnext, -, hreturned⟩ := hlater _ _ _ third
  refine ⟨hposition, output, ?_⟩
  obtain ⟨event, key, hleg, rfl⟩ | ⟨hend, -⟩ := hnext
  · cases hleg
    exact hreturned
  · cases hend

/-- An instance of a workflow without steps completes and is not found afterwards, although a run and
a call that resumes it are as they should be. -/
theorem forgotten :
    empty.IsStraight [] ∧ engine.Call empty "a" none before (run "empty") setOffEmpty ∧
    engine.Call empty "a" (some ⟨"go", .null⟩) (before ++ [run "empty"] ++ setOffEmpty)
      (resume "empty" "go") goOnEmpty ∧
    (engine.after historyEmpty).endings =
      [(2, .returned (.ok ⟨"a", .completed, none⟩)),
        (4, .returned (.error (.fault (.instanceNotFound "a"))))] := by
  refine ⟨.nil, ?_, ?_, rfl⟩
  · exact call (R := ⟨registry, .empty, ⟨1⟩⟩) courseEmpty .run rfl rfl rfl rfl rfl
      (by decide +kernel) (by decide +kernel) (by decide +kernel) (by decide +kernel)
      (by decide +kernel)
  · exact call (R := ⟨registry, .empty, ⟨1⟩⟩) (l := []) courseEmpty .resume rfl rfl rfl rfl rfl
      (by decide +kernel) (by decide +kernel) (by decide +kernel) (by decide +kernel)
      (by decide +kernel)

end ResumedTwice

end DurableFlow
