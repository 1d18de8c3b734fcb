import DurableFlow.Proofs.Positions.PositionInvariant
import DurableFlow.Proofs.Publications.Journal

/-!
# Announcements

What is published about an instance is true at the moment at which it is published: the position
that is stored then is the one that the news tells. Between two starts, an instance is announced to
be delayed any number of times, and then at most once to be completed, failed or waiting. A delay is
announced right after its position has been saved, and a chain that comes to its end has announced
how.

Main statement: `Engine.Course.announces`.
-/

namespace DurableFlow

/-- What the news tells about the stored position. -/
def News.Tells (D : Definition) (p : Nat) : News → Prop
  | .completed => D.size ≤ p
  | .failed step _ | .waiting step _ => step = p
  | .delayed next _ => next = p

/-- Where an instance stands after an announcement. -/
def Topic.status : Topic → Status
  | .completed => .completed
  | .failed => .failed
  | .waiting => .waiting
  | .delayed => .delayed

/-- Whether a chain starts by this deed. -/
def Deed.isStart : Deed → Bool
  | .started _ => true
  | _ => false

/-- The deeds since a chain has started for the last time. -/
def Deed.recent (l : List Deed) : List Deed :=
  l.foldl (fun T d => match d with
    | .started _ => []
    | _ => T ++ [d]) []

/-- Delays, and at most one announcement of another kind behind them. -/
def Announced (ns : List Notice) : Prop :=
  ∃ delays last, ns = delays ++ last ∧ (∀ n ∈ delays, n.topic = .delayed) ∧ last.length ≤ 1 ∧
    ∀ n ∈ last, n.topic ≠ .delayed

theorem Announced.of_append {ns last : List Notice} (hns : ∀ n ∈ ns, n.topic = .delayed)
    (hlast : last.length ≤ 1) : Announced (ns ++ last) := by
  rcases last with _ | ⟨n, _ | ⟨n', last⟩⟩
  · exact ⟨ns, [], rfl, hns, hlast, by simp⟩
  · by_cases hn : n.topic = .delayed
    · refine ⟨ns ++ [n], [], (List.append_nil _).symm, ?_, Nat.zero_le 1, by simp⟩
      intro n' hn'
      rcases List.mem_append.1 hn' with hn' | hn'
      · exact hns n' hn'
      · rw [List.mem_singleton.1 hn']
        exact hn
    · refine ⟨ns, [n], rfl, hns, hlast, ?_⟩
      intro n' hn'
      rw [List.mem_singleton.1 hn']
      exact hn
  · simp at hlast

/-! ## Announcements of rounds -/

/-- What is published by effects that have been done. -/
theorem Deed.mem_announcements_map {c : Chain} {es : List Effect} {n : Notice}
    (h : n ∈ Deed.announcements (es.map (Effect.deed c))) :
    ∃ news, .publish news ∈ es ∧ n = c.notice news := by
  obtain ⟨d, hd, hn⟩ := List.mem_filterMap.1 h
  obtain ⟨e, he, rfl⟩ := List.mem_map.1 hd
  cases e with
  | publish news => exact ⟨news, he, (Option.some.inj hn).symm⟩
  | _ => cases hn

/-- **Complete rounds announce delays only.** -/
theorem Trail.announcements {d : Definition} {p j : Nat} {T : List Deed} (h : Trail d p T j) :
    ∀ n ∈ Deed.announcements T, n.topic = .delayed := by
  induction h with
  | start => simp [Deed.announcements, Deed.notice?]
  | @round T i j o now es turn context c h hr hplan hnext ih =>
    intro n hn
    rw [Deed.announcements_append, List.mem_append] at hn
    rcases hn with hn | hn
    · exact ih n hn
    · have hround : Deed.announcements
          (.executed i :: .returned i o :: (es.map (Effect.deed c) ++ turn.deeds)) =
          Deed.announcements (es.map (Effect.deed c)) := by
        have hturn : Deed.announcements turn.deeds = [] := by cases turn <;> rfl
        have happend := Deed.announcements_append (es.map (Effect.deed c)) turn.deeds
        rw [hturn, List.append_nil] at happend
        exact happend
      rw [hround] at hn
      obtain ⟨news, hnews, rfl⟩ := Deed.mem_announcements_map hn
      obtain ⟨done, es', rfl⟩ := List.append_of_mem hnews
      obtain ⟨_, _, -, rfl, -⟩ | ⟨_, -, -, -, hstop⟩ | ⟨_, _, -, -, -, hstop⟩ :=
        Plan.publish_cases hplan
      · rfl
      · rw [hstop] at hnext
        cases hnext
      · rw [hstop] at hnext
        cases hnext

/-- A plan publishes once at most. -/
theorem Plan.announcements_le {d : Definition} {c : Context} {i : Nat} {now : Instant}
    {o : Outcome} {plan : Plan} (h : Plan.ofOutcome d c i now o = .ok plan) (k : Chain) :
    (Deed.announcements (plan.effects.map (Effect.deed k))).length ≤ 1 := by
  cases o with
  | jump label =>
    obtain ⟨target, -, rfl⟩ := Plan.jump_cases h
    exact Nat.zero_le 1
  | proceed => cases h; exact Nat.zero_le 1
  | delay duration => cases h; exact le_rfl
  | wait message => cases h; exact le_rfl
  | failure cause => cases h; exact le_rfl

/-- **A round announces one thing at most.** -/
theorem Round.announcements {d : Definition} {i p : Nat} {r : List Deed} {c : Chain} {φ : Phase}
    (h : Round d i r c φ p) : (Deed.announcements r).length ≤ 1 := by
  have part : ∀ (c : Chain) (done es : List Effect),
      (Deed.announcements ((done ++ es).map (Effect.deed c))).length ≤ 1 →
      (Deed.announcements (done.map (Effect.deed c))).length ≤ 1 := by
    intro c done es hle
    rw [List.map_append, Deed.announcements_append, List.length_append] at hle
    omega
  have snoc : ∀ {r : List Deed} {d' : Deed}, d'.notice? = none →
      (Deed.announcements r).length ≤ 1 → (Deed.announcements (r ++ [d'])).length ≤ 1 := by
    intro r d' hd' hle
    rw [Deed.announcements_append, List.length_append]
    have hnone : Deed.announcements [d'] = [] := by simp [Deed.announcements, hd']
    rw [hnone]
    exact hle
  induction h with
  | @acting c o now done es turn context hr hplan =>
    exact part c done es (Plan.announcements_le hplan c)
  | @ending c done es turn hi hplan =>
    refine part c done es ?_
    have hatEnd : (Plan.atEnd c.context).effects = done ++ es := congrArg Plan.effects hplan
    rw [← hatEnd]
    exact le_rfl
  | unsaved _ ih => exact snoc rfl ih
  | refused _ ih => exact snoc rfl ih
  | unscheduled _ ih => exact snoc rfl ih
  | _ => exact Nat.zero_le 1

/-- What is about to be published is true. -/
theorem Round.publishing {d : Definition} {i p : Nat} {r : List Deed} {c : Chain} {news : News}
    {es : List Effect} {turn : Turn} (h : Round d i r c (.acting ⟨.publish news :: es, turn⟩) p) :
    news.Tells d p ∧ ∀ next due, news = .delayed next due → ∃ duration, next = i + 1 ∧
      r = [.executed i, .returned i (.delay duration), .saved next] := by
  cases h with
  | acting hr hplan =>
    obtain ⟨duration, due, rfl, rfl, rfl, -⟩ | ⟨message, rfl, rfl, rfl, -⟩ |
      ⟨cause, s, rfl, rfl, rfl, -⟩ := Plan.publish_cases hplan
    · refine ⟨rfl, ?_⟩
      rintro next due' heq
      cases heq
      exact ⟨duration, rfl, rfl⟩
    · exact ⟨rfl, by simp⟩
    · exact ⟨rfl, by simp⟩
  | ending hi hplan =>
    obtain ⟨rfl, rfl⟩ := Plan.publish_atEnd hplan
    exact ⟨hi, by simp⟩

/-- A chain that is about to stop has announced how. -/
theorem Round.stopping {d : Definition} {i p : Nat} {r : List Deed} {c : Chain}
    {result : RunResult} (h : Round d i r c (.acting ⟨[], .stop result⟩) p) :
    ∃ news, Deed.announcements r = [c.notice news] ∧ news.topic ≠ .delayed ∧
      news.topic.status = result.status := by
  cases h with
  | @acting _ o now done _ _ context hr hplan =>
    rw [List.append_nil] at hplan
    obtain ⟨message, rfl, rfl, rfl⟩ | ⟨cause, rfl, rfl, rfl⟩ := Plan.stop_cases hplan
    · exact ⟨.waiting i message, rfl, by simp [News.topic], rfl⟩
    · exact ⟨.failed i cause, rfl, by simp [News.topic], rfl⟩
  | ending hi hplan =>
    rw [List.append_nil] at hplan
    cases hplan
    exact ⟨.completed, rfl, by simp [News.topic], rfl⟩

/-! ## The deeds since the last start -/

theorem Deed.recent_concat (l : List Deed) {d : Deed} (hd : ∀ p, d ≠ .started p) :
    Deed.recent (l ++ [d]) = Deed.recent l ++ [d] := by
  rw [Deed.recent, List.foldl_append]
  cases d with
  | started p => exact absurd rfl (hd p)
  | _ => rfl

theorem Deed.recent_append (l : List Deed) {l' : List Deed} (hl' : ∀ p, .started p ∉ l') :
    Deed.recent (l ++ l') = Deed.recent l ++ l' := by
  induction l' using List.reverseRecOn with
  | nil => rw [List.append_nil, List.append_nil]
  | append_singleton l' d ih =>
    have hlast : ∀ p, d ≠ .started p := fun p hp => hl' p (hp ▸ List.mem_concat_self)
    have hinit : ∀ p, .started p ∉ l' := fun p hp => hl' p (List.mem_append_left _ hp)
    rw [← List.append_assoc, Deed.recent_concat _ hlast, ih hinit, List.append_assoc]

theorem Deed.recent_started (l : List Deed) (p : Nat) : Deed.recent (l ++ [.started p]) = [] := by
  rw [Deed.recent, List.foldl_append]
  rfl

theorem Effect.deed_ne_started (c : Chain) (es : List Effect) :
    ∀ q, .started q ∉ es.map (Effect.deed c) := by
  intro q hq
  obtain ⟨e, -, he⟩ := List.mem_map.1 hq
  cases e <;> cases he

/-- A trail starts once. -/
theorem Trail.recent {d : Definition} {p j : Nat} {T : List Deed} (h : Trail d p T j)
    (l : List Deed) : .started p :: Deed.recent (l ++ T) = T := by
  induction h with
  | start => rw [Deed.recent_started]
  | @round T i j o now es turn context c h hr hplan hnext ih =>
    have hround : ∀ q, .started q ∉
        (.executed i :: .returned i o :: (es.map (Effect.deed c) ++ turn.deeds) : List Deed) := by
      intro q hq
      rcases List.mem_cons.1 hq with hq | hq
      · cases hq
      rcases List.mem_cons.1 hq with hq | hq
      · cases hq
      rcases List.mem_append.1 hq with hq | hq
      · exact Effect.deed_ne_started c es q hq
      · cases turn <;> simp [Turn.deeds] at hq
    rw [← List.append_assoc, Deed.recent_append _ hround, ← List.cons_append, ih]

theorem Round.not_started {d : Definition} {i p : Nat} {r : List Deed} {c : Chain} {φ : Phase}
    (h : Round d i r c φ p) : ∀ q, .started q ∉ r := by
  have snoc : ∀ {r : List Deed} {d' : Deed}, (∀ q, d' ≠ .started q) → (∀ q, .started q ∉ r) →
      ∀ q, .started q ∉ r ++ [d'] := by
    intro r d' hd' hr q hq
    rcases List.mem_append.1 hq with hq | hq
    · exact hr q hq
    · exact hd' q (List.mem_singleton.1 hq).symm
  induction h with
  | @acting c o now done es turn context hr hplan =>
    intro q hq
    have hdone : .started q ∈ done.map (Effect.deed c) := by simpa using hq
    exact Effect.deed_ne_started c done q hdone
  | @ending c done es turn hi hplan =>
    intro q hq
    have hdone : .started q ∈ done.map (Effect.deed c) := by simpa using hq
    exact Effect.deed_ne_started c done q hdone
  | unsaved _ ih => exact snoc (by simp) ih
  | refused _ ih => exact snoc (by simp) ih
  | unscheduled _ ih => exact snoc (by simp) ih
  | _ => simp

namespace Story

variable {D : Definition} {x : String} {p₀ p : Nat} {l L : List Deed} {st : Option (Chain × Phase)}
  {c : Chain} {φ : Phase}

/-- The announcements of a chain are those of its rounds. -/
theorem announcements_recent (h : Story D x p₀ l (some (c, φ)) p) :
    ∃ T₀ r p₁ i, Trail D p₁ T₀ i ∧ Round D i r c φ p ∧
      Deed.announcements (Deed.recent l) = Deed.announcements T₀ ++ Deed.announcements r := by
  obtain ⟨-, l₀, p₁, T, rfl, -, T₀, i, r, rfl, htrail, hround⟩ := h.recalls
  refine ⟨T₀, r, p₁, i, htrail, hround, ?_⟩
  have htrail₀ : Deed.announcements (Deed.recent (l₀ ++ T₀)) = Deed.announcements T₀ := by
    conv_rhs => rw [← htrail.recent l₀]
    rfl
  rw [← List.append_assoc, Deed.recent_append _ hround.not_started, Deed.announcements_append,
    htrail₀]

/-- **Delays are announced, and at most one thing behind them.** -/
theorem announced (h : Story D x p₀ l st p) : Announced (Deed.announcements (Deed.recent l)) := by
  have live : ∀ {l c φ p}, Story D x p₀ l (some (c, φ)) p →
      Announced (Deed.announcements (Deed.recent l)) := by
    intro l c φ p h
    obtain ⟨T₀, r, p₁, i, htrail, hround, heq⟩ := h.announcements_recent
    rw [heq]
    exact .of_append htrail.announcements hround.announcements
  cases h with
  | nil => exact ⟨[], [], rfl, by simp, Nat.zero_le 1, by simp⟩
  | start h hD hc hx => exact live (h.start hD hc hx)
  | go h hgo => exact live (h.go hgo)
  | @ended l c φ _ d h hd =>
    have hstarted : ∀ q, d ≠ .started q := by cases hd <;> simp
    have hnone : Deed.announcements [d] = [] := by cases hd <;> rfl
    rw [Deed.recent_concat l hstarted, Deed.announcements_append, hnone, List.append_nil]
    exact live h

/-- A step that has returned is about to be acted upon. -/
theorem after_returned {i : Nat} {o : Outcome} (h : Story D x p₀ L st p)
    (hL : L = l ++ [.returned i o]) :
    ∃ c φ, st = some (c, φ) ∧
      ((∃ now plan, Plan.ofOutcome D c.context i now o = .ok plan ∧ φ = .acting plan) ∨
        ∃ fault, φ = .halting fault) := by
  induction h with
  | nil => simp at hL
  | start h _ _ _ _ => cases (List.append_inj' hL rfl).2
  | ended h hd _ =>
    cases (List.append_inj' hL rfl).2
    cases hd
  | @go l' c φ p ds p' c' φ' h hgo ih =>
    obtain rfl | ⟨d, rfl⟩ := hgo.deeds_cases
    · rw [List.append_nil] at hL
      obtain ⟨c₁, φ₁, hst, ⟨now, plan, hplan, rfl⟩ | ⟨fault, rfl⟩⟩ := ih hL
      · cases hst
        cases hgo with
        | arrive =>
          cases o with
          | jump label =>
            obtain ⟨target, -, hplan⟩ := Plan.jump_cases hplan
            cases hplan
          | _ => cases hplan
      · cases hst
        cases hgo
    · cases (List.append_inj' hL rfl).2
      obtain ⟨rfl, -⟩ := h.recalls
      cases hgo with
      | heed hr hplan => exact ⟨_, _, rfl, .inl ⟨_, _, hplan, rfl⟩⟩
      | misjump hr hplan => exact ⟨_, _, rfl, .inr ⟨_, rfl⟩⟩

/-- A delay whose position has been saved is about to be announced. -/
theorem after_saved {i n : Nat} {duration : Duration} (h : Story D x p₀ L st p)
    (hL : L = l ++ [.returned i (.delay duration), .saved n]) :
    ∃ c due, st = some (c, .acting ⟨[.publish (.delayed n due)], .suspend n due⟩) := by
  have hsplit : l ++ [.returned i (.delay duration), .saved n] =
      (l ++ [.returned i (.delay duration)]) ++ [.saved n] := by simp
  rw [hsplit] at hL
  induction h with
  | nil => simp at hL
  | start h _ _ _ _ => cases (List.append_inj' hL rfl).2
  | ended h hd _ =>
    cases (List.append_inj' hL rfl).2
    cases hd
  | @go l' c φ p ds p' c' φ' h hgo ih =>
    obtain rfl | ⟨d, rfl⟩ := hgo.deeds_cases
    · rw [List.append_nil] at hL
      obtain ⟨c₁, due, hst⟩ := ih hL
      cases hst
      cases hgo
    · obtain ⟨hl', hd⟩ := List.append_inj' hL rfl
      cases hd
      obtain ⟨c₁, φ₁, hst, ⟨now, plan, hplan, rfl⟩ | ⟨fault, rfl⟩⟩ := h.after_returned hl'
      · cases hst
        cases hplan
        cases hgo with
        | save => exact ⟨_, _, rfl⟩
      · cases hst
        cases hgo

theorem notice_eq (h : Story D x p₀ l (some (c, φ)) p) (news : News) :
    c.notice news = ⟨x, D.name, news⟩ := by
  obtain ⟨rfl, -⟩ := h.recalls
  obtain ⟨-, rfl⟩ := h.inst_eq
  rfl

/-- **What is published is true.** -/
theorem published {n : Notice} (h : Story D x p₀ l st p) (ho : Occurs p st (.published n)) :
    n.inst = x ∧ n.workflow = D.name ∧ n.news.Tells D p ∧
      ∀ next due, n.news = .delayed next due → ∃ T i duration, next = i + 1 ∧
        l = T ++ [.executed i, .returned i (.delay duration), .saved next] := by
  cases ho with
  | ended hd => cases hd
  | go hgo =>
    cases hgo with
    | publish =>
      obtain ⟨-, l₀, p₁, T, rfl, -, T₀, i, r, rfl, -, hround⟩ := h.recalls
      obtain ⟨htells, hdelayed⟩ := hround.publishing
      rw [h.notice_eq]
      refine ⟨rfl, rfl, htells, ?_⟩
      rintro next due rfl
      obtain ⟨duration, hnext, rfl⟩ := hdelayed next due rfl
      exact ⟨l₀ ++ T₀, i, duration, hnext, (List.append_assoc ..).symm⟩

/-- **A chain that stops has announced how.** -/
theorem stopped {result : RunResult} (h : Story D x p₀ l st p)
    (ho : Occurs p st (.stopped result)) : ∃ delays n,
      Deed.announcements (Deed.recent l) = delays ++ [n] ∧ (∀ n' ∈ delays, n'.topic = .delayed) ∧
        n.topic ≠ .delayed ∧ n.topic.status = result.status ∧ n.inst = x ∧
          n.workflow = D.name := by
  cases ho with
  | go hgo => cases hgo
  | ended hd =>
    cases hd with
    | stop =>
      obtain ⟨T₀, r, p₁, i, htrail, hround, heq⟩ := h.announcements_recent
      obtain ⟨news, hnews, htopic, hstatus⟩ := hround.stopping
      rw [h.notice_eq] at hnews
      rw [hnews] at heq
      exact ⟨_, _, heq, htrail.announcements, htopic, hstatus, rfl, rfl⟩

end Story

namespace Engine

/-- What an act announces about an instance of which the story so far is given. -/
structure Announces (m : Engine) (D : Definition) (x : String) (l : List Deed) (a : Act) :
    Prop where
  /-- What the journal says about the instance behind what it said before is what is published for
  the instance. -/
  entered : (m.act a).publicationsOf x = m.publicationsOf x ++
    Deed.announcements (Deed.of (fun c => c.inst == x) (m.deeds a))
  /-- What is published is true of the stored position, and leaves it as it is. -/
  published : ∀ c n, (c, .published n) ∈ m.deeds a → c.inst = x →
    n.inst = x ∧ n.workflow = D.name ∧ n.news.Tells D (m.position x) ∧
      (m.act a).position x = m.position x
  /-- A delay is announced right after its position has been saved. -/
  delayed : ∀ c n next due, (c, .published n) ∈ m.deeds a → c.inst = x →
    n.news = .delayed next due → ∃ T i duration, next = i + 1 ∧
      l = T ++ [.executed i, .returned i (.delay duration), .saved next]
  /-- Once the position of a delay has been saved, the delay is announced, unless the bus refuses
  or the chain is cut off. -/
  saved : ∀ T i duration next, l = T ++ [.returned i (.delay duration), .saved next] →
    ∀ c d, (c, d) ∈ m.deeds a → c.inst = x → d = .lost ∨ ∃ due,
      d = .published ⟨x, D.name, .delayed next due⟩ ∨ d = .refused ⟨x, D.name, .delayed next due⟩
  /-- A chain that comes to its end has announced how. -/
  stopped : ∀ c result, (c, .stopped result) ∈ m.deeds a → c.inst = x → ∃ delays n,
    Deed.announcements (Deed.recent l) = delays ++ [n] ∧ (∀ n' ∈ delays, n'.topic = .delayed) ∧
      n.topic ≠ .delayed ∧ n.topic.status = result.status ∧ n.inst = x ∧ n.workflow = D.name

/-- The last chain of the instance starts at the end of the first part of a history. -/
def StartsLast (e : Engine) (x : String) (before after : List Act) : Prop :=
  (∃ l p, e.story x before = l ++ [.started p]) ∧
    ∀ d ∈ (e.after before).story x after, d.isStart = false

variable {e : Engine} {D : Definition} {x : String} {as before after : List Act} {a : Act}

theorem story_append (e : Engine) (x : String) (as bs : List Act) :
    e.story x (as ++ bs) = e.story x as ++ (e.after as).story x bs := by
  rw [story, chronicle_append, Deed.of_append]
  rfl

/-- What is done for the instance since its last chain has started. -/
theorem StartsLast.recent (h : e.StartsLast x before after) :
    Deed.recent (e.story x (before ++ after)) = (e.after before).story x after := by
  obtain ⟨⟨l, p, hstarted⟩, honce⟩ := h
  have hnone : ∀ q, .started q ∉ (e.after before).story x after := fun q hq => by
    cases honce _ hq
  rw [story_append, Deed.recent_append _ hnone, hstarted, Deed.recent_started, List.nil_append]

/-- What has been published since the last chain of the instance has started. -/
theorem StartsLast.publicationsOf (h : e.StartsLast x before after) :
    (e.after (before ++ after)).publicationsOf x = (e.after before).publicationsOf x ++
      Deed.announcements (Deed.recent (e.story x (before ++ after))) := by
  rw [h.recent, after_append, publicationsOf_after]

namespace Course

theorem announces_act (h : e.Course D x (before ++ [a])) :
    (e.after before).Announces D x (e.story x before) a := by
  refine ⟨publicationsOf_act .., ?_, ?_, ?_, ?_⟩
  · intro c n hd hx
    obtain ⟨-, st, hstory, hoccurs⟩ := h.occurs hd (by simp) hx
    obtain ⟨hinst, hworkflow, htells, -⟩ := hstory.published hoccurs
    refine ⟨hinst, hworkflow, htells, h.keepsPosition.kept fun c' next hsaved => ?_⟩
    -- Nothing else is done by the act.
    rw [deeds_eq_singleton hd (by simp), List.mem_singleton] at hsaved
    cases (Prod.mk.inj hsaved).2
  · intro c n next due hd hx hnews
    obtain ⟨-, st, hstory, hoccurs⟩ := h.occurs hd (by simp) hx
    obtain ⟨-, -, -, hdelayed⟩ := hstory.published hoccurs
    exact hdelayed next due hnews
  · intro T i duration next hl c d hd hx
    by_cases hlost : d = .lost
    · exact .inl hlost
    · obtain ⟨-, st, hstory, hoccurs⟩ := h.occurs hd hlost hx
      obtain ⟨c₁, due, rfl⟩ := hstory.after_saved hl
      cases hoccurs with
      | go hgo =>
        cases hgo with
        | publish => exact .inr ⟨due, .inl (by rw [hstory.notice_eq])⟩
        | refuse => exact .inr ⟨due, .inr (by rw [hstory.notice_eq])⟩
      | ended hover =>
        cases hover with
        | lose => exact .inl rfl
  · intro c result hd hx
    obtain ⟨-, st, hstory, hoccurs⟩ := h.occurs hd (by simp) hx
    exact hstory.stopped hoccurs

/-- **What is published about an instance tells the truth about the store.** What an act enters into
the journal about the instance is what is published for it. Each time that the bus accepts an
announcement, the stored position is the one that it tells. Since a chain has started, delays have
been announced, each right after its position was saved, and at most one thing of another kind
behind them, and the journal says just that; a chain that completes, waits or fails has announced
just that. -/
theorem announces (h : e.Course D x as) :
    (∀ before a after, as = before ++ a :: after →
      (e.after before).Announces D x (e.story x before) a) ∧
    (∀ before, before <+: as → Announced (Deed.announcements (Deed.recent (e.story x before)))) ∧
    ∀ before after, before ++ after <+: as → e.StartsLast x before after →
      (e.after (before ++ after)).publicationsOf x = (e.after before).publicationsOf x ++
        Deed.announcements (Deed.recent (e.story x (before ++ after))) := by
  refine ⟨?_, ?_, fun before after _ hlast => hlast.publicationsOf⟩
  · rintro before a after rfl
    rw [List.append_cons] at h
    exact h.left.announces_act
  · rintro before ⟨after, rfl⟩
    obtain ⟨st, hstory⟩ := h.left.story
    exact hstory.announced

end Course

end Engine

/-- The greeting is announced to be delayed, and then to be completed. -/
theorem Greeting.told_truthfully :
    ((Greeting.engine.after Greeting.acts).publicationsOf "x").map Notice.topic =
        [.delayed, .completed] ∧
      (Greeting.engine.after Greeting.acts).publicationsOf "x" =
        (Greeting.engine.after (Greeting.acts.take 3)).publicationsOf "x" ++
          Deed.announcements (Deed.recent (Greeting.engine.story "x" Greeting.acts)) ∧
      Announced (Deed.announcements (Deed.recent (Greeting.engine.story "x" Greeting.acts))) ∧
      (Greeting.engine.after (Greeting.acts.take 6)).Announces Greeting.definition "x"
        (Greeting.engine.story "x" (Greeting.acts.take 6)) (.advance 2) := by
  have hlast : Greeting.engine.StartsLast "x" (Greeting.acts.take 3) (Greeting.acts.drop 3) :=
    ⟨⟨[], 0, rfl⟩, by decide +kernel⟩
  obtain ⟨hacts, hannounced, hjournal⟩ := Greeting.course.announces
  exact ⟨by decide +kernel, hjournal (Greeting.acts.take 3) _ (List.prefix_refl _) hlast,
    hannounced _ (List.prefix_refl _), hacts _ _ (Greeting.acts.drop 7) rfl⟩

end DurableFlow
