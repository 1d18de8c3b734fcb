import DurableFlow.Proofs.Histories.History
import DurableFlow.Proofs.Steps.OutcomePlans
import DurableFlow.Proofs.Steps.Returns

/-!
# Rounds of a chain

What a chain does is a sequence of rounds: it executes the step at its position, and the outcome
decides which effects follow and where the next round starts. `Goes` says all that a chain can do at
one time, and what becomes of the position of its instance. `Trail` says what the deeds of complete
rounds are and where they lead, `Round` how far the present round has got. Main statement: whatever
a chain does, its deeds are a trail and the beginning of a round (`Recalls.goes`).
-/

namespace DurableFlow

/-- How far a chain is, as far as its deeds tell. -/
inductive Phase
  | entering (index : Nat)
  | within (index : Nat)
  | acting (plan : Plan)
  | halting (fault : Fault)
  /-- Laid to rest until its delay is over. -/
  | resting (next : Nat)

/-- The phase of a chain at a stage. -/
def Stage.phase : Stage → Phase
  | .entering index => .entering index
  | .inside index _ | .calling index _ => .within index
  | .acting plan => .acting plan
  | .halting fault => .halting fault

/-- The deed by which an effect is done for a chain. -/
def Effect.deed (c : Chain) : Effect → Deed
  | .save next => .saved next
  | .publish news => .published (c.notice news)
  | .settle settlement => .settled settlement

/-- What a chain can do at one time: from a position of its instance, as a chain in a phase, by some
deeds, to another position, as a chain in another phase. -/
inductive Goes : Nat → Chain → Phase → List Deed → Nat → Chain → Phase → Prop
  | execute {p c i} (h : i < c.definition.size) :
      Goes p c (.entering i) [.executed i] p c (.within i)
  | pass {p c i} (h : c.definition.size ≤ i) :
      Goes p c (.entering i) [.passed c.context.output] p c (.acting (.atEnd c.context))
  | withdraw {p c i} : Goes p c (.entering i) [] p c (.halting .cancelled)
  | abort {p c i} : Goes p c (.within i) [] p c (.halting .cancelled)
  | heed {p c i o now plan} {context : Context}
      (hr : c.definition.Returns i c.context o context)
      (h : Plan.ofOutcome c.definition context i now o = .ok plan) :
      Goes p c (.within i) [.returned i o] p { c with context } (.acting plan)
  | misjump {p c i o now fault} {context : Context}
      (hr : c.definition.Returns i c.context o context)
      (h : Plan.ofOutcome c.definition context i now o = .error fault) :
      Goes p c (.within i) [.returned i o] p { c with context } (.halting fault)
  | save {p c next es turn} :
      Goes p c (.acting ⟨.save next :: es, turn⟩) [.saved next] next c (.acting ⟨es, turn⟩)
  | unsave {p c next es turn error} :
      Goes p c (.acting ⟨.save next :: es, turn⟩) [.unsaved next] p c (.halting (.store error))
  | publish {p c news es turn} :
      Goes p c (.acting ⟨.publish news :: es, turn⟩) [.published (c.notice news)] p c
        (.acting ⟨es, turn⟩)
  | refuse {p c news es turn} :
      Goes p c (.acting ⟨.publish news :: es, turn⟩) [.refused (c.notice news)] p c
        (.halting .busClosed)
  | settle {p c s es turn} :
      Goes p c (.acting ⟨.settle s :: es, turn⟩) [.settled s] p { c with completion := none }
        (.acting ⟨es, turn⟩)
  | arrive {p c i} : Goes p c (.acting ⟨[], .arrive i⟩) [] p c (.entering i)
  | suspend {p c next due} :
      Goes p c (.acting ⟨[], .suspend next due⟩) [.suspended next] p c (.resting next)
  | unschedule {p c next due error} :
      Goes p c (.acting ⟨[], .suspend next due⟩) [.unscheduled next] p c
        (.halting (.scheduler error))
  | wake {p c next} : Goes p c (.resting next) [] p c (.entering next)

/-- The last deed of a chain, by the phase in which it ends. -/
inductive Ends : Phase → Deed → Prop
  | stop {result} : Ends (.acting ⟨[], .stop result⟩) (.stopped result)
  | halt {fault} : Ends (.halting fault) (.halted fault)
  | panic {i} : Ends (.within i) .panicked
  | drop {next} : Ends (.resting next) .dropped
  | lose {phase} : Ends phase .lost

namespace Goes

variable {p p' : Nat} {c c' : Chain} {φ φ' : Phase} {ds : List Deed}

theorem definition_eq (h : Goes p c φ ds p' c' φ') : c'.definition = c.definition := by
  cases h <;> rfl

theorem inst_eq (h : Goes p c φ ds p' c' φ') (hd : c.definition.IsLoyal) : c'.inst = c.inst := by
  cases h with
  | heed hr _ => exact hd.inst_eq hr
  | misjump hr _ => exact hd.inst_eq hr
  | _ => rfl

end Goes

/-! ## Trails and rounds -/

/-- The deed by which a chain takes its turn. -/
def Turn.deeds : Turn → List Deed
  | .suspend next _ => [.suspended next]
  | _ => []

/-- The deeds of complete rounds, from the position at which a chain starts to another one. -/
inductive Trail (d : Definition) (p : Nat) : List Deed → Nat → Prop
  | start : Trail d p [.started p] p
  | round {T i j o now es turn} {context : Context} {c : Chain} (h : Trail d p T i)
      (hr : d.Returns i context o c.context)
      (hplan : Plan.ofOutcome d c.context i now o = .ok ⟨es, turn⟩) (hnext : turn.next? = some j) :
      Trail d p (T ++ .executed i :: .returned i o :: (es.map (Effect.deed c) ++ turn.deeds)) j

/-- A round at an index that has got to a phase: its deeds so far, the chain and the position. -/
inductive Round (d : Definition) (i : Nat) : List Deed → Chain → Phase → Nat → Prop
  | entering {c} : Round d i [] c (.entering i) i
  | resting {c} : Round d i [] c (.resting i) i
  | within {c} (h : i < d.size) : Round d i [.executed i] c (.within i) i
  | acting {c : Chain} {o now done es turn} {context : Context}
      (hr : d.Returns i context o c.context)
      (h : Plan.ofOutcome d c.context i now o = .ok ⟨done ++ es, turn⟩) :
      Round d i (.executed i :: .returned i o :: done.map (Effect.deed c)) c (.acting ⟨es, turn⟩)
        (Effect.position i done)
  | ending {c : Chain} {done es turn} (h : d.size ≤ i)
      (hplan : Plan.atEnd c.context = ⟨done ++ es, turn⟩) :
      Round d i (.passed c.context.output :: done.map (Effect.deed c)) c (.acting ⟨es, turn⟩)
        (Effect.position i done)
  | withdrawn {c} : Round d i [] c (.halting .cancelled) i
  | aborted {c} (h : i < d.size) : Round d i [.executed i] c (.halting .cancelled) i
  | misjumped {c : Chain} {o now fault} {context : Context} (hr : d.Returns i context o c.context)
      (h : Plan.ofOutcome d c.context i now o = .error fault) :
      Round d i [.executed i, .returned i o] c (.halting fault) i
  | unsaved {r c p next es turn error} (h : Round d i r c (.acting ⟨.save next :: es, turn⟩) p) :
      Round d i (r ++ [.unsaved next]) c (.halting (.store error)) p
  | refused {r c p news es turn} (h : Round d i r c (.acting ⟨.publish news :: es, turn⟩) p) :
      Round d i (r ++ [.refused (c.notice news)]) c (.halting .busClosed) p
  | unscheduled {r c p next due error} (h : Round d i r c (.acting ⟨[], .suspend next due⟩) p) :
      Round d i (r ++ [.unscheduled next]) c (.halting (.scheduler error)) p

/-- The deeds of a chain, from a position at which it started, are a trail and the beginning of a
round. -/
def Recalls (d : Definition) (p₀ : Nat) (T : List Deed) (c : Chain) (φ : Phase) (p : Nat) : Prop :=
  ∃ T₀ i r, T = T₀ ++ r ∧ Trail d p₀ T₀ i ∧ Round d i r c φ p

theorem Effect.deed_completion (c : Chain) (completion : Option CompletionId) :
    Effect.deed { c with completion } = Effect.deed c := by
  funext e
  cases e <;> rfl

theorem Round.acted {d : Definition} {i p : Nat} {r : List Deed} {c c' : Chain} {e : Effect}
    {es : List Effect} {turn : Turn} (h : Round d i r c (.acting ⟨e :: es, turn⟩) p)
    (hcontext : c'.context = c.context) (hdeed : Effect.deed c' = Effect.deed c) :
    Round d i (r ++ [e.deed c]) c' (.acting ⟨es, turn⟩) (Effect.position p [e]) := by
  cases h with
  | acting hr h =>
    rename_i o now done context
    have hplan : Plan.ofOutcome d c'.context i now o = .ok ⟨(done ++ [e]) ++ es, turn⟩ := by
      simpa [hcontext] using h
    have hround := Round.acting (c := c') (hcontext ▸ hr) hplan
    simpa [Effect.position_append, hdeed] using hround
  | ending h hplan =>
    rename_i done
    have hplan' : Plan.atEnd c'.context = ⟨(done ++ [e]) ++ es, turn⟩ := by
      simpa [hcontext] using hplan
    have hround := Round.ending (c := c') h hplan'
    simpa [Effect.position_append, hdeed, hcontext] using hround

theorem Round.turned {d : Definition} {i j p p₀ : Nat} {T r : List Deed} {c : Chain} {turn : Turn}
    (hT : Trail d p₀ T i) (h : Round d i r c (.acting ⟨[], turn⟩) p) (hnext : turn.next? = some j) :
    Trail d p₀ (T ++ (r ++ turn.deeds)) j ∧ p = j := by
  cases h with
  | acting hr h =>
    rw [List.append_nil] at h
    exact ⟨by simpa using hT.round hr h hnext, Plan.position_of_next h hnext⟩
  | ending h hplan =>
    rw [List.append_nil] at hplan
    rw [Plan.atEnd_next hplan] at hnext
    cases hnext

/-- A position is about to be saved right after the step at the stored position has returned. -/
theorem Round.saving {d : Definition} {i n p : Nat} {r : List Deed} {c : Chain} {es : List Effect}
    {turn : Turn} (h : Round d i r c (.acting ⟨.save n :: es, turn⟩) p) :
    p = i ∧ ∃ o, r = [.executed i, .returned i o] ∧ d.saved? i o = some n := by
  cases h with
  | @acting _ o now done _ _ context hr hplan =>
    obtain ⟨rfl, hsaved⟩ := Plan.save_first hplan
    exact ⟨rfl, o, rfl, hsaved⟩
  | ending _ hplan =>
    exact absurd (List.mem_append_right _ List.mem_cons_self) (Plan.save_not_mem_atEnd hplan n)

/-- **Whatever a chain does, it recalls its rounds.** -/
theorem Recalls.goes {d : Definition} {p₀ p p' : Nat} {T ds : List Deed} {c c' : Chain}
    {φ φ' : Phase} (h : Recalls d p₀ T c φ p) (hd : c.definition = d)
    (hgo : Goes p c φ ds p' c' φ') : Recalls d p₀ (T ++ ds) c' φ' p' := by
  obtain ⟨T₀, i, r, rfl, hT, hr⟩ := h
  -- Unless a turn is taken, the deeds go on the present round.
  have stay : ∀ {r'}, r' = r ++ ds → Round d i r' c' φ' p' →
      Recalls d p₀ (T₀ ++ r ++ ds) c' φ' p' :=
    fun {r'} hr' h => ⟨T₀, i, r', by rw [hr', List.append_assoc], hT, h⟩
  have turn : ∀ {t j}, φ = .acting ⟨[], t⟩ → t.next? = some j → ds = t.deeds → p' = p →
      Round d j [] c' φ' j → Recalls d p₀ (T₀ ++ r ++ ds) c' φ' p' := by
    rintro t j rfl hnext rfl rfl h
    obtain ⟨hT', rfl⟩ := Round.turned hT hr hnext
    exact ⟨_, _, [], by simp, hT', h⟩
  cases hgo with
  | execute hi =>
    cases hr with
    | entering => exact stay rfl (.within (hd ▸ hi))
  | pass hi =>
    cases hr with
    | entering =>
      have hplan : Plan.atEnd c.context = ⟨[] ++ (Plan.atEnd c.context).effects, _⟩ := rfl
      exact stay rfl (.ending (hd ▸ hi) hplan)
  | withdraw =>
    cases hr with
    | entering => exact stay rfl .withdrawn
  | abort =>
    cases hr with
    | within hi => exact stay rfl (.aborted hi)
  | @heed _ _ _ plan context hret hplan =>
    cases hr with
    | within _ =>
      subst hd
      have hround := Round.acting (c := { c with context }) hret
        (hplan.trans (congrArg Except.ok (show plan = ⟨[] ++ plan.effects, plan.turn⟩ from rfl)))
      exact stay rfl hround
  | @misjump _ _ _ _ context hret hplan =>
    cases hr with
    | within _ =>
      subst hd
      exact stay rfl (.misjumped (c := { c with context }) hret hplan)
  | save => exact stay rfl (hr.acted rfl rfl)
  | unsave => exact stay rfl (.unsaved hr)
  | publish => exact stay rfl (hr.acted rfl rfl)
  | refuse => exact stay rfl (.refused hr)
  | settle => exact stay rfl (hr.acted rfl (Effect.deed_completion c none))
  | arrive => exact turn rfl rfl rfl rfl .entering
  | suspend => exact turn rfl rfl rfl rfl .resting
  | unschedule => exact stay rfl (.unscheduled hr)
  | wake =>
    cases hr with
    | resting => exact stay rfl .entering

end DurableFlow
