import DurableFlow.Proofs.Isolation.MirroredMoves

/-!
# Acts and their mirrors

What is done in an engine, a family that has an engine to itself notices as an echo: what its own
members do is done there too, and of what others do it notices that a number is drawn or that one of
its tokens is cancelled, if at all (`Engine.part`). A continuation that goes off, by itself or as it
is woken, is woken there if it belongs to the family (`Engine.rousing`).

Main statement: an engine that mirrors the family does so still after the echo of an act
(`Engine.Mirrors.echo`).
-/

namespace DurableFlow

/-- An act by which a task of a family is taken on or cut off, or a delay of it is cancelled. -/
def Act.isFor (own : Nat → Bool) (ids : String → Bool) : Act → Bool
  | .advance n | .cut n => own n
  | .cancelDelay _ x => ids x
  | _ => false

namespace Engine

/-- The place of the continuation that waits for a delay among those that are armed. -/
def place (e : Engine) (delay : Nat) : Nat :=
  e.scheduler.timers.armed.findIdx fun x => x.work.delay == delay

/-- The tokens of a family that are cancelled by an act, in their order. -/
def cancellations (own : Nat → Bool) (e : Engine) (a : Act) : List Token :=
  (((e.act a).cancelled.take ((e.act a).cancelled.length - e.cancelled.length)).filter
    (Token.isOwn own)).reverse

variable {own : Nat → Bool} {ids : String → Bool} {voice : Nat → String} {others : Nat}
  {m e e' : Engine} {a : Act}

/-! ## What goes off -/

theorem getElem?_place {x : Timer Continuation} (hx : x ∈ e.scheduler.timers.armed)
    (hnodup : (e.scheduler.timers.armed.map fun y => y.work.delay).Nodup) :
    e.scheduler.timers.armed[e.place x.work.delay]? = some x := by
  have hlt : e.place x.work.delay < e.scheduler.timers.armed.length :=
    List.findIdx_lt_length_of_exists ⟨x, hx, beq_self_eq_true _⟩
  have hdelay : (e.scheduler.timers.armed[e.place x.work.delay]).work.delay = x.work.delay :=
    beq_iff_eq.1 (List.findIdx_getElem (w := hlt))
  rw [List.getElem?_eq_getElem hlt]
  exact congrArg some (List.inj_on_of_nodup_map hnodup (List.getElem_mem hlt) hx hdelay)

/-- What is due goes off as it does by hand. -/
theorem releaseDue_eq (m : Engine) :
    m.releaseDue = m ∨ ∃ x, m.scheduler.timers.armed[0]? = some x ∧
      m.releaseDue = m.act (.wake 0) := by
  unfold releaseDue
  split
  · unfold Timers.pop?
    cases harmed : m.scheduler.timers.armed with
    | nil => exact .inl rfl
    | cons x rest =>
      dsimp only
      split
      · rename_i timer timers hpop
        split at hpop
        · rename_i hdue
          cases hpop
          have hdisarm : m.disarm 0 = m.withTimers
              { m.scheduler.timers with
                clock := max m.scheduler.timers.clock x.deadline, armed := rest } := by
            rw [disarm, harmed, Nat.max_eq_left hdue]
            rfl
          have hx : m.scheduler.timers.armed[0]? = some x := by rw [harmed]; rfl
          refine .inr ⟨x, rfl, ?_⟩
          simp only [act, hx, hdisarm]
          rfl
        · cases hpop
      · exact .inl rfl
  · exact .inl rfl

/-- An act ends with a continuation that goes off, or with none. -/
inductive Rouses (e : Engine) (a : Act) (m : Engine) : Prop
  | none (hact : e.act a = m) (hwoken : e.woken? a = none)
  | some {place : Nat} {x : Timer Continuation} (hact : e.act a = m.act (.wake place))
      (hwoken : e.woken? a = some (x.task m.next))
      (hx : m.scheduler.timers.armed[place]? = some x)
      (hmarked : x.token.path.headD 0 = x.work.delay)
      (hnodup : (m.scheduler.timers.armed.map fun y => y.work.delay).Nodup)

theorem woken?_eq_none (h : ∀ t ∈ (e.act a).tasks, t.number < e.next) : e.woken? a = none := by
  unfold woken?
  split
  · rfl
  · refine List.find?_eq_none.2 fun t ht => ?_
    have hlt := h t ht
    simp only [decide_eq_true_eq]
    omega

theorem woken?_eq_some {ts : List Task} {t : Task} (ha : a.opening? = none)
    (htasks : (e.act a).tasks = ts ++ [t]) (hts : ∀ u ∈ ts, u.number < e.next)
    (ht : e.next ≤ t.number) : e.woken? a = some t := by
  have hnone : ts.find? (fun u => decide (e.next ≤ u.number)) = none :=
    List.find?_eq_none.2 fun u hu => by
      have hlt := hts u hu
      simp only [decide_eq_true_eq]
      omega
  rw [woken?, ha, Option.isSome_none, if_neg Bool.false_ne_true, htasks, List.find?_append, hnone]
  simp [ht]

/-- Delays have numbers of their own. -/
theorem IsDivided.nodup_delays (hd : e.IsDivided own ids) :
    (e.scheduler.timers.armed.map fun x => x.work.delay).Nodup := by
  have hnumbers := hd.numbers
  rw [members, Multiset.map_add] at hnumbers
  have htimers := (Multiset.nodup_add.1 hnumbers).2.1
  rw [Member.timers, Multiset.map_coe, Multiset.coe_nodup, List.map_map] at htimers
  exact htimers

theorem IsDivided.isMarked_of_mem (hd : e.IsDivided own ids) {x : Timer Continuation}
    (hx : x ∈ e.scheduler.timers.armed) :
    x.token.path.headD 0 = x.work.delay ∧ x.work.delay < e.next := by
  have hmarked := hd.marked (.timer x) (Multiset.mem_add.2 (.inr (Member.mem_timers.2 ⟨x, hx, rfl⟩)))
  exact ⟨hmarked.headD_path, hmarked.2⟩

/-- At the end of a move a continuation goes off, or none. -/
theorem Releases.cases {e₁ : Engine} (h : e.Releases m e₁) (hd : e.IsDivided own ids) :
    m.tasks = e.tasks ∧ (e₁ = m ∨ ∃ x, m.scheduler.timers.armed[0]? = some x ∧
      e₁ = m.act (.wake 0) ∧ e.next ≤ m.next ∧ x.token.path.headD 0 = x.work.delay ∧
      (m.scheduler.timers.armed.map fun y => y.work.delay).Nodup) := by
  cases h with
  | still htasks => exact ⟨htasks, .inl rfl⟩
  | due c τ next due =>
    obtain ⟨hnext, -⟩ := e.next_lay c τ next due
    refine ⟨e.tasks_lay c τ next due, ?_⟩
    obtain hsame | ⟨x, hx, hwake⟩ := releaseDue_eq (e.lay c τ next due).1
    · exact .inl hsame
    · refine .inr ⟨x, hx, hwake, by omega, ?_⟩
      have hmem := List.mem_of_getElem? hx
      refine ⟨?_, nodup_lay c τ next due hd.nodup_delays fun y hy => (hd.isMarked_of_mem hy).2⟩
      obtain ⟨-, -, ⟨deadline, harmed, -⟩ | ⟨hsame, -⟩⟩ := e.lay_cases c τ next due
      · rcases List.mem_cons.1 (harmed.mem_iff.1 hmem) with rfl | hmem
        · rfl
        · exact (hd.isMarked_of_mem hmem).1
      · rw [hsame] at hmem
        exact (hd.isMarked_of_mem hmem).1

theorem act_wake {place : Nat} {x : Timer Continuation}
    (hx : e.scheduler.timers.armed[place]? = some x) :
    e.act (.wake place) = { e.disarm place with
      pending := (e.untrack x.work.chain.dispatcher x.work.chain.inst x.work.delay).pending
      next := e.next + 1
      tasks := e.tasks ++ [x.task e.next] } := by
  have hpending := pending_untrack e (e.disarm place) rfl x.work.chain.dispatcher
    x.work.chain.inst x.work.delay
  simp only [act, hx, resumeContinuation]
  rw [untrack_eq, hpending]
  rfl

/-- A task that goes on after a delay does not come in the way of another one that moves on. -/
theorem putTask_wake {x : Timer Continuation} (hx : e.scheduler.timers.armed[0]? = some x)
    {t : Task} (ht : t.number < e.next) :
    (e.act (.wake 0)).putTask t = (e.putTask t).act (.wake 0) := by
  have hx' : (e.putTask t).scheduler.timers.armed[0]? = some x := hx
  have hpending := pending_untrack e (e.putTask t) rfl x.work.chain.dispatcher
    x.work.chain.inst x.work.delay
  have hne : ((x.task e.next).number == t.number) = false :=
    beq_eq_false_iff_ne.2 (Nat.ne_of_gt ht)
  rw [act_wake hx, act_wake hx', hpending]
  simp only [Engine.putTask, List.map_append, List.map_cons, List.map_nil, hne]
  rfl

theorem endTask_wake {x : Timer Continuation} (hx : e.scheduler.timers.armed[0]? = some x)
    {n : Nat} (hn : n < e.next) (ending : Ending) :
    (e.act (.wake 0)).endTask n ending = (e.endTask n ending).act (.wake 0) := by
  have hx' : (e.endTask n ending).scheduler.timers.armed[0]? = some x := hx
  have hpending := pending_untrack e (e.endTask n ending) rfl x.work.chain.dispatcher
    x.work.chain.inst x.work.delay
  have hne : ((x.task e.next).number != n) = true := bne_iff_ne.2 (Nat.ne_of_gt hn)
  rw [act_wake hx, act_wake hx', hpending]
  simp only [Engine.endTask, List.filter_append, List.filter_cons, List.filter_nil, hne]
  rfl

/-- A task moves on, and then a continuation goes off, or none. -/
theorem rouses_on {n : Nat} {t t' : Task} {e₁ : Engine} (hd : e.IsDivided own ids)
    (ht : e.task? n = some t) (hmove : e.move t = .on e₁ t') (hr : e.Releases m e₁)
    (hnumber : t'.number < e.next) : e.Rouses (.advance n) (m.putTask t') := by
  have hact : e.act (.advance n) = e₁.putTask t' := Engine.act_advance_on ht hmove
  obtain ⟨htasks, hcases⟩ := hr.cases hd
  have hlt : ∀ u ∈ (m.putTask t').tasks, u.number < e.next := by
    intro u hu
    obtain ⟨u', hu', rfl⟩ := List.mem_map.1 hu
    split
    · exact hnumber
    · exact hd.sound.lt_next u' (htasks ▸ hu')
  obtain rfl | ⟨x, hx, rfl, hle, hmarked, hnodup⟩ := hcases
  · exact .none hact (woken?_eq_none (hact ▸ hlt))
  · rw [putTask_wake hx (Nat.lt_of_lt_of_le hnumber hle)] at hact
    refine .some hact (woken?_eq_some rfl ?_ hlt hle) hx hmarked hnodup
    rw [hact, act_wake (e := m.putTask t') hx]

theorem rouses_over {n : Nat} {t : Task} {e₁ : Engine} {ending : Ending}
    (hd : e.IsDivided own ids) (ht : e.task? n = some t) (hmove : e.move t = .over e₁ ending)
    (hr : e.Releases m e₁) : e.Rouses (.advance n) (m.endTask n ending) := by
  have hact : e.act (.advance n) = e₁.endTask n ending := Engine.act_advance_over ht hmove
  obtain ⟨hmem, rfl⟩ := task?_eq_some ht
  obtain ⟨htasks, hcases⟩ := hr.cases hd
  have hlt : ∀ u ∈ (m.endTask t.number ending).tasks, u.number < e.next := fun u hu =>
    hd.sound.lt_next u (htasks ▸ (List.mem_filter.1 hu).1)
  obtain rfl | ⟨x, hx, rfl, hle, hmarked, hnodup⟩ := hcases
  · exact .none hact (woken?_eq_none (hact ▸ hlt))
  · rw [endTask_wake hx (Nat.lt_of_lt_of_le (hd.sound.lt_next t hmem) hle)] at hact
    refine .some hact (woken?_eq_some rfl ?_ hlt hle) hx hmarked hnodup
    rw [hact, act_wake (e := m.endTask t.number ending) hx]

theorem tasks_cancelDelay (e : Engine) (d : DispatcherId) (x : String) :
    (e.act (.cancelDelay d x)).tasks = e.tasks := by
  obtain ⟨pending, cancelled, heq, -⟩ := e.cancelDelay_eq d x
  rw [act, heq]

/-! ## Echoes -/

/-- What an act of others is for a family that has an engine to itself: nothing, but that tokens of
the family may be cancelled by it and a number drawn. -/
def passing (own : Nat → Bool) (e : Engine) (a : Act) : List Act :=
  (e.cancellations own a).map .cancel ++ if e.next < (e.act a).next then [.mint] else []

/-- What an act is for a family that has an engine to itself, but for a continuation that goes
off. -/
def part (own : Nat → Bool) (ids : String → Bool) (e e' : Engine) (a : Act) : List Act :=
  match a with
  | .advance n => if own n then [a] else e.passing own a
  | .run _ _ _ | .resume _ _ _ _ _ => if own e.next then [a] else [.mint]
  | .wake _ => []
  | .drop place =>
    match e.scheduler.timers.armed[place]? with
    | some x => if own x.work.delay then [.drop (e'.place x.work.delay)] else []
    | none => []
  | .cut n => if own n then [a] else []
  | .cancel token => if token.isOwn own then [a] else []
  | .cancelDelay _ inst => if ids inst then [a] else []
  | _ => [a]

/-- The continuation that goes off by an act goes off for a family that has an engine to itself; if
it is one of others, a number is drawn. -/
def rousing (own : Nat → Bool) (e m' : Engine) (a : Act) : List Act :=
  match e.woken? a with
  | some t => if own t.number then [.wake (m'.place (t.token.path.headD 0))] else [.mint]
  | none => []

/-- What an act is for a family that has an engine to itself. -/
def echo (own : Nat → Bool) (ids : String → Bool) (e e' : Engine) (a : Act) : List Act :=
  e.part own ids e' a ++ e.rousing own (e'.after (e.part own ids e' a)) a

/-- What a history is for a family that has an engine to itself. -/
def echoes (own : Nat → Bool) (ids : String → Bool) (e e' : Engine) : List Act → List Act
  | [] => []
  | a :: as =>
    e.echo own ids e' a ++ (e.act a).echoes own ids (e'.after (e.echo own ids e' a)) as

/-- The identities that are made up by an act for a family. -/
def named (own : Nat → Bool) (e : Engine) : Act → List String
  | .advance n =>
    if own n then
      (List.range ((e.act (.advance n)).identities - e.identities)).map fun i =>
        e.identity (e.identities + i)
    else []
  | _ => []

/-- The identities that are made up in the course of a history for a family. -/
def voices (own : Nat → Bool) (e : Engine) : List Act → List String
  | [] => []
  | a :: as => e.named own a ++ (e.act a).voices own as

/-- What is done for the family by an act, before a continuation goes off, is done by other acts in
the mirror. -/
def IsEchoed (own : Nat → Bool) (ids : String → Bool) (voice : Nat → String) (e e' : Engine)
    (a : Act) (as : List Act) : Prop :=
  ∃ m others, e.Rouses a m ∧ m.Mirrors own ids voice others (e'.after as) ∧
    (e'.after as).identities = e'.identities + (e.named own a).length ∧
    e'.chronicle as = if e.concerns own a then e.deeds a else []

theorem filter_passing (own : Nat → Bool) (e : Engine) (a : Act) :
    ((e.passing own a).filter (Act.isFor (fun _ => true) fun _ => true)) = [] := by
  refine List.filter_eq_nil_iff.2 fun b hb => ?_
  rcases List.mem_append.1 hb with hb | hb
  · obtain ⟨τ, -, rfl⟩ := List.mem_map.1 hb
    exact Bool.false_ne_true
  · split at hb
    · cases List.mem_singleton.1 hb
      exact Bool.false_ne_true
    · cases hb

/-- A family that has an engine to itself takes the same tasks on, cuts the same off and cancels the
same delays. -/
theorem filter_echo (own : Nat → Bool) (ids : String → Bool) (e e' : Engine) (a : Act) :
    ((e.echo own ids e' a).filter (Act.isFor (fun _ => true) fun _ => true)) =
      [a].filter (Act.isFor own ids) := by
  have hrousing : ∀ m' : Engine,
      ((e.rousing own m' a).filter (Act.isFor (fun _ => true) fun _ => true)) = [] := by
    intro m'
    unfold rousing
    split
    · split <;> rfl
    · rfl
  rw [echo, List.filter_append, hrousing, List.append_nil]
  cases a with
  | advance n =>
    cases hown : own n with
    | true => simp [part, Act.isFor, hown]
    | false => simp [part, Act.isFor, hown, filter_passing]
  | cut n => cases hown : own n <;> simp [part, Act.isFor, hown]
  | cancelDelay d x => cases hx : ids x <;> simp [part, Act.isFor, hx]
  | run r τ q => cases hown : own e.next <;> simp [part, Act.isFor, hown]
  | resume r τ w x v => cases hown : own e.next <;> simp [part, Act.isFor, hown]
  | cancel τ => cases hτ : τ.isOwn own <;> simp [part, Act.isFor, hτ]
  | drop place =>
    cases hx : e.scheduler.timers.armed[place]? with
    | none => simp [part, Act.isFor, hx]
    | some x => cases hown : own x.work.delay <;> simp [part, Act.isFor, hx, hown]
  | _ => rfl

theorem after_cancels (e : Engine) (tokens : List Token) :
    e.after (tokens.reverse.map .cancel) = { e with cancelled := tokens ++ e.cancelled } ∧
      e.chronicle (tokens.reverse.map .cancel) = [] := by
  induction tokens with
  | nil => exact ⟨rfl, rfl⟩
  | cons τ tokens ih =>
    obtain ⟨hafter, hchronicle⟩ := ih
    rw [List.reverse_cons, List.map_append, List.map_singleton, after_append, chronicle_append,
      hafter, hchronicle]
    exact ⟨rfl, rfl⟩

theorem after_passing (own : Nat → Bool) {tokens : List Token} {n : Nat}
    (hcancelled : (e.act a).cancelled = tokens ++ e.cancelled) (hsame : e'.next = e.next)
    (hn : n = if e.next < (e.act a).next then e.next + 1 else e.next) :
    e'.after (e.passing own a) =
        { e' with cancelled := tokens.filter (Token.isOwn own) ++ e'.cancelled, next := n } ∧
      e'.chronicle (e.passing own a) = [] := by
  have htokens : e.cancellations own a = (tokens.filter (Token.isOwn own)).reverse := by
    rw [cancellations, hcancelled, List.length_append, Nat.add_sub_cancel, List.take_left]
  obtain ⟨hafter, hchronicle⟩ := e'.after_cancels (tokens.filter (Token.isOwn own))
  rw [passing, htokens, after_append, chronicle_append, hafter, hchronicle, hn, ← hsame]
  split
  · exact ⟨rfl, rfl⟩
  · exact ⟨rfl, rfl⟩

theorem after_passing_keeps (own : Nat → Bool) (e e' : Engine) (a : Act) :
    (e'.after (e.passing own a)).pending = e'.pending ∧
      (e'.after (e.passing own a)).scheduler = e'.scheduler := by
  unfold passing cancellations
  rw [after_append, (after_cancels _ _).1]
  split
  · exact ⟨rfl, rfl⟩
  · exact ⟨rfl, rfl⟩

/-- At the end of a move more numbers are drawn only if one was drawn by it. -/
theorem Releases.drawn {e₁ : Engine} (h : e.Releases m e₁) :
    e₁.cancelled = m.cancelled ∧ m.next ≤ e₁.next ∧ (e₁.next = m.next ∨ e.next < m.next) := by
  cases h with
  | still htasks => exact ⟨rfl, le_rfl, .inl rfl⟩
  | due c τ next due =>
    obtain ⟨hnext, -⟩ := e.next_lay c τ next due
    have hdrawn : e.next < (e.lay c τ next due).1.next := by omega
    obtain hsame | ⟨x, hx, hwake⟩ := releaseDue_eq (e.lay c τ next due).1
    · rw [hsame]
      exact ⟨rfl, le_rfl, .inl rfl⟩
    · rw [hwake, act_wake hx]
      exact ⟨rfl, Nat.le_succ _, .inr hdrawn⟩

theorem Releases.identities_le {e₁ : Engine} (h : e.Releases m e₁) :
    e.identities ≤ m.identities := by
  cases h with
  | still _ hle => exact hle
  | due c τ next due => exact (e.identities_lay c τ next due).ge

/-- A continuation that goes off cancels no token. -/
theorem Rouses.cancelled_eq (h : e.Rouses a m) : (e.act a).cancelled = m.cancelled := by
  cases h with
  | none hact _ => rw [hact]
  | some hact _ hx _ _ =>
    rw [hact, act_wake hx]
    rfl

/-- A continuation that goes off makes up no identity. -/
theorem Rouses.identities_eq (h : e.Rouses a m) : (e.act a).identities = m.identities := by
  cases h with
  | none hact _ => rw [hact]
  | some hact _ hx _ _ =>
    rw [hact, act_wake hx]
    rfl

/-- By a continuation that goes off nothing is done yet, and no identity is made up. -/
theorem rousing_silent (own : Nat → Bool) (e m' : Engine) (a : Act) :
    (m'.after (e.rousing own m' a)).identities = m'.identities ∧
      m'.chronicle (e.rousing own m' a) = [] := by
  unfold rousing
  split
  · split
    · refine ⟨?_, rfl⟩
      rw [after_cons, after_nil]
      generalize m'.place _ = place
      cases hx : m'.scheduler.timers.armed[place]? with
      | none => simp only [act, hx]
      | some x =>
        rw [act_wake hx]
        rfl
    · exact ⟨rfl, rfl⟩
  · exact ⟨rfl, rfl⟩

/-- An act by which no task is added is echoed if the mirror stays one. -/
theorem IsDivided.isEchoed {as : List Act} (hd : e.IsDivided own ids) (others : Nat)
    (htasks : (e.act a).tasks ⊆ e.tasks)
    (hm : (e.act a).Mirrors own ids voice others (e'.after as))
    (hidentities : (e'.after as).identities = e'.identities + (e.named own a).length)
    (hchronicle : e'.chronicle as = if e.concerns own a then e.deeds a else []) :
    IsEchoed own ids voice e e' a as :=
  ⟨_, others, .none rfl (woken?_eq_none fun t ht => hd.sound.lt_next t (htasks ht)), hm,
    hidentities, hchronicle⟩

namespace Mirrors

/-- A continuation of the family has its place in the mirror too. -/
theorem getElem?_place {x : Timer Continuation} (h : e.Mirrors own ids voice others e')
    (hnodup : (e.scheduler.timers.armed.map fun y => y.work.delay).Nodup)
    (hx : x ∈ e.scheduler.timers.armed) (hown : own x.work.delay = true) :
    e'.scheduler.timers.armed[e'.place x.work.delay]? = some x := by
  refine Engine.getElem?_place (h.scheduler.armed.mem_iff.2 (List.mem_filter.2 ⟨hx, hown⟩)) ?_
  exact ((h.scheduler.armed.map _).nodup_iff).2 (hnodup.sublist (List.filter_sublist.map _))

/-- What goes off by an act goes off for the family too. -/
theorem rousing {m' : Engine} (h : m.Mirrors own ids voice others m') (hr : e.Rouses a m)
    (hinherits : e.Inherits own a) (hapart : (e.act a).IsApart own ids) :
    (e.act a).Mirrors own ids voice others (m'.after (e.rousing own m' a)) := by
  unfold Engine.rousing
  cases hr with
  | none hact hwoken =>
    rw [hact, hwoken]
    exact h
  | @some place x hact hwoken hx hmarked hnodup =>
    have hown : own m.next = own x.work.delay := by
      rw [← hmarked]
      exact hinherits.woken (x.task m.next) hwoken
    have hinst : ids x.work.chain.inst = own m.next := by
      have hmem : x.task m.next ∈ (e.act a).tasks := by
        rw [hact, act_wake hx]
        exact List.mem_append_right _ List.mem_cons_self
      exact hapart.chains _ hmem _ List.mem_cons_self _ rfl
    rw [hact, hwoken]
    cases hnext : own m.next with
    | true =>
      have hdelay : own x.work.delay = true := hown.symm.trans hnext
      have hx' := h.getElem?_place hnodup (List.mem_of_getElem? hx) hdelay
      have hnumber : own (x.task m.next).number = true := hnext
      simp only [hnumber, if_true]
      rw [show (x.task m.next).token.path.headD 0 = x.work.delay from hmarked]
      exact h.wake hx hx' hdelay hnext
    | false =>
      have hdelay : own x.work.delay = false := hown.symm.trans hnext
      have hnumber : own (x.task m.next).number = false := hnext
      simp only [hnumber, Bool.false_eq_true, if_false]
      exact h.wake_left hx hdelay (hinst.trans hnext) hnext

section

variable (h : e.Mirrors own ids voice others e') (hd : e.IsDivided own ids)
include h

theorem task?_eq {n : Nat} (hn : own n = true) : e'.task? n = e.task? n := by
  rw [task?, h.tasks, List.find?_filter]
  refine congrArg (fun p => e.tasks.find? p) (funext fun t => ?_)
  by_cases ht : t.number = n
  · simp [ht, hn]
  · simp [ht]

/-- What others do passes the mirror by. -/
theorem passing {e₁ : Engine} (hpasses : PassesBy own ids voice e e' e₁)
    (hnext : (e.act a).next = e₁.next) (hcancelled : (e.act a).cancelled = e₁.cancelled) :
    ∃ m others', e.Releases m e₁ ∧
      m.Mirrors own ids voice others' (e'.after (e.passing own a)) ∧
      (e'.after (e.passing own a)).identities = e'.identities ∧
      e'.chronicle (e.passing own a) = [] := by
  obtain ⟨m, others', tokens, hm, htokens, hdrawn, hr⟩ := hpasses
  obtain ⟨hsame, hle, hwoken⟩ := hr.drawn
  rw [← hsame, ← hcancelled] at htokens
  have hn : m.next = if e.next < (e.act a).next then e.next + 1 else e.next := by
    rw [hnext]
    split <;> omega
  obtain ⟨hafter, hchronicle⟩ := after_passing own htokens h.next hn
  rw [hafter]
  exact ⟨m, others', hr, hm, rfl, hchronicle⟩

include hd

/-- **What a task of the family does when it is taken on is done in the mirror.** -/
theorem advance {n : Nat} (hown : own n = true) (hinherits : e.Inherits own (.advance n))
    (hvoice : e.identities < (e.act (.advance n)).identities →
      ids (e.identity e.identities) = true ∧ voice e'.identities = e.identity e.identities) :
    ∃ m, e.Rouses (.advance n) m ∧
      m.Mirrors own ids voice others (e'.act (.advance n)) ∧ e.identities ≤ m.identities ∧
      e'.deeds (.advance n) = e.deeds (.advance n) := by
  have htask := h.task?_eq hown
  cases ht : e.task? n with
  | none =>
    have hact : e.act (.advance n) = e := Engine.act_advance_none ht
    have hact' : e'.act (.advance n) = e' := Engine.act_advance_none (htask.trans ht)
    refine ⟨e, .none hact (woken?_eq_none (hact.symm ▸ hd.sound.lt_next)), hact'.symm ▸ h,
      le_rfl, ?_⟩
    simp only [deeds, htask, ht]
  | some t =>
    obtain ⟨hmem, rfl⟩ := task?_eq_some ht
    have hnext : (e.act (.advance t.number)).next = ((e.move t).engine e).next ∧
        (e.act (.advance t.number)).identities = ((e.move t).engine e).identities := by
      cases hmove : e.move t <;> simp only [Engine.act, Engine.advance, ht, hmove] <;>
        exact ⟨rfl, rfl⟩
    have hdrawn : e.next < ((e.move t).engine e).next → own e.next = true := by
      rw [← hnext.1]
      exact fun hlt => (hinherits.drawn _ rfl hlt).trans hown
    rw [hnext.2] at hvoice
    have hdeeds := h.deedsOf_eq hd hmem hown hdrawn hvoice
    have hmoved := h.move hd hmem hown hdrawn hvoice
    have hsame : e'.deeds (.advance t.number) = e.deeds (.advance t.number) := by
      simpa only [deeds, htask, ht] using hdeeds
    have hturned := turned_move (e := e) (hd.sound.tasks t hmem)
    generalize hM : e.move t = M at hmoved hturned
    generalize hM' : e'.move t = M' at hmoved
    cases hmoved with
    | blocked =>
      have hact : e.act (.advance t.number) = e := Engine.act_advance_blocked ht hM
      have hact' : e'.act (.advance t.number) = e' :=
        Engine.act_advance_blocked (htask.trans ht) hM'
      exact ⟨e, .none hact (woken?_eq_none (hact.symm ▸ hd.sound.lt_next)), hact'.symm ▸ h,
        le_rfl, hsame⟩
    | @on m e₁ e₁' t' hm hr =>
      obtain ⟨-, -, -, -, hnumber, -⟩ := hturned
      have hact' : e'.act (.advance t.number) = e₁'.putTask t' :=
        Engine.act_advance_on (htask.trans ht) hM'
      have hlt : t'.number < e.next := hnumber ▸ hd.sound.lt_next t hmem
      exact ⟨_, rouses_on hd ht hM hr hlt, hact'.symm ▸ hm.putTask t',
        hr.identities_le, hsame⟩
    | @«over» m e₁ e₁' ending hm hr =>
      have hact' : e'.act (.advance t.number) = e₁'.endTask t.number ending :=
        Engine.act_advance_over (htask.trans ht) hM'
      exact ⟨_, rouses_over hd ht hM hr, hact'.symm ▸ hm.endTask _ _,
        hr.identities_le, hsame⟩

/-- **What a task of others does when it is taken on passes the mirror by.** -/
theorem advance_left {n : Nat} (hown : own n = false) (hinherits : e.Inherits own (.advance n)) :
    ∃ m others', e.Rouses (.advance n) m ∧
      m.Mirrors own ids voice others' (e'.after (e.passing own (.advance n))) ∧
      (e'.after (e.passing own (.advance n))).identities = e'.identities ∧
      e'.chronicle (e.passing own (.advance n)) = [] := by
  have hstill : e.act (.advance n) = e → ∃ m others', e.Rouses (.advance n) m ∧
      m.Mirrors own ids voice others' (e'.after (e.passing own (.advance n))) ∧
      (e'.after (e.passing own (.advance n))).identities = e'.identities ∧
      e'.chronicle (e.passing own (.advance n)) = [] := by
    intro hact
    have hpassing : e.passing own (.advance n) = [] := by
      simp [Engine.passing, cancellations, hact]
    rw [hpassing]
    exact ⟨e, others, .none hact (woken?_eq_none (hact.symm ▸ hd.sound.lt_next)), h, rfl, rfl⟩
  cases ht : e.task? n with
  | none => exact hstill (Engine.act_advance_none ht)
  | some t =>
    obtain ⟨hmem, rfl⟩ := task?_eq_some ht
    have hturned := turned_move (e := e) (hd.sound.tasks t hmem)
    have hpasses := h.passesBy hd hmem hown
    have hinherits := fun hlt => (hinherits.drawn _ rfl hlt).trans hown
    cases hM : e.move t with
    | blocked => exact hstill (Engine.act_advance_blocked ht hM)
    | on e₁ t' =>
      rw [hM] at hturned hpasses
      obtain ⟨-, -, -, -, hnumber, -⟩ := hturned
      have hact : e.act (.advance t.number) = e₁.putTask t' := Engine.act_advance_on ht hM
      rw [hact] at hinherits
      obtain ⟨m, others', hr, hm, hrest⟩ := h.passing (a := .advance t.number) (hpasses hinherits)
        (by rw [hact]; rfl) (by rw [hact]; rfl)
      have hlt : t'.number < e.next := hnumber ▸ hd.sound.lt_next t hmem
      exact ⟨_, others', rouses_on hd ht hM hr hlt, hm.putTask_left (hnumber ▸ hown), hrest⟩
    | «over» e₁ ending =>
      rw [hM] at hpasses
      have hact : e.act (.advance t.number) = e₁.endTask t.number ending :=
        Engine.act_advance_over ht hM
      rw [hact] at hinherits
      obtain ⟨m, others', hr, hm, hrest⟩ := h.passing (a := .advance t.number) (hpasses hinherits)
        (by rw [hact]; rfl) (by rw [hact]; rfl)
      exact ⟨_, others', rouses_over hd ht hM hr, hm.endTask_left hown _, hrest⟩

/-- What is dropped of the family is dropped in the mirror. -/
theorem part_drop (place : Nat) :
    IsEchoed own ids voice e e' (.drop place) (e.part own ids e' (.drop place)) := by
  cases hx : e.scheduler.timers.armed[place]? with
  | none =>
    have hpart : e.part own ids e' (.drop place) = [] := by simp only [Engine.part, hx]
    have harmed : e.scheduler.timers.armed.eraseIdx place = e.scheduler.timers.armed :=
      List.eraseIdx_of_length_le (List.getElem?_eq_none_iff.1 hx)
    rw [hpart]
    refine hd.isEchoed others (List.Subset.refl _)
      { h with scheduler := { h.scheduler with armed := ?_ } } rfl ?_
    · rw [show (e.act (.drop place)).scheduler.timers.armed = _ from harmed]
      exact h.scheduler.armed
    · simp only [concerns, hx]
      rfl
  | some x =>
    have hmem := List.mem_of_getElem? hx
    cases hown : own x.work.delay with
    | true =>
      have hx' := h.getElem?_place hd.nodup_delays hmem hown
      have hkin := hd.kin _ (Multiset.mem_add.2 (.inr (Member.mem_timers.2 ⟨x, hmem, rfl⟩)))
      have hpart : e.part own ids e' (.drop place) = [.drop (e'.place x.work.delay)] := by
        simp only [Engine.part, hx, hown, if_true]
      rw [hpart]
      refine hd.isEchoed others (List.Subset.refl _) (h.disarm hx hx' hown) rfl ?_
      have hcancelled : e'.isCancelled x.token = e.isCancelled x.token :=
        h.cancelled _ (hkin.token hown)
      simp [concerns, chronicle, deeds, hx, hx', hown, hcancelled]
    | false =>
      have hpart : e.part own ids e' (.drop place) = [] := by simp [Engine.part, hx, hown]
      rw [hpart]
      refine hd.isEchoed others (List.Subset.refl _) (h.disarm_left hx hown) rfl ?_
      simp [concerns, chronicle, hx, hown]

theorem part_wake (place : Nat) :
    IsEchoed own ids voice e e' (.wake place) (e.part own ids e' (.wake place)) := by
  cases hx : e.scheduler.timers.armed[place]? with
  | none =>
    have hact : e.act (.wake place) = e := by simp only [Engine.act, hx]
    refine hd.isEchoed others (by rw [hact]; exact List.Subset.refl _) (hact.symm ▸ h) rfl rfl
  | some x =>
    have htasks : (e.act (.wake place)).tasks = e.tasks ++ [x.task e.next] := by rw [act_wake hx]
    have hwoken := woken?_eq_some rfl htasks hd.sound.lt_next le_rfl
    exact ⟨e, others, .some rfl hwoken hx (hd.isMarked_of_mem (List.mem_of_getElem? hx)).1
      hd.nodup_delays, h, rfl, rfl⟩

theorem part_advance {n : Nat} (hinherits : e.Inherits own (.advance n))
    (hvoice : ∀ x ∈ (e.named own (.advance n)).head?, ids x = true ∧ voice e'.identities = x) :
    IsEchoed own ids voice e e' (.advance n) (e.part own ids e' (.advance n)) := by
  cases hown : own n with
  | true =>
    have hpart : e.part own ids e' (.advance n) = [.advance n] := by
      simp only [Engine.part, hown, if_true]
    have hnamed : e.named own (.advance n) =
        (List.range ((e.act (.advance n)).identities - e.identities)).map fun i =>
          e.identity (e.identities + i) := by
      simp only [named, hown, if_true]
    obtain ⟨m, hr, hm, hle, hdeeds⟩ := h.advance hd hown hinherits fun hlt => by
      refine hvoice _ ?_
      obtain ⟨k, hk⟩ : ∃ k, (e.act (.advance n)).identities - e.identities = k + 1 :=
        ⟨_, (Nat.succ_pred_eq_of_pos (Nat.sub_pos_of_lt hlt)).symm⟩
      rw [hnamed, hk, List.range_succ_eq_map]
      rfl
    rw [hpart]
    refine ⟨m, others, hr, hm, ?_, ?_⟩
    · have hidentities := h.identities
      have hidentities' := hm.identities
      rw [hnamed, List.length_map, List.length_range, hr.identities_eq, after_cons, after_nil]
      omega
    · rw [chronicle, chronicle, List.append_nil, hdeeds, concerns, hown, if_pos rfl]
  | false =>
    have hpart : e.part own ids e' (.advance n) = e.passing own (.advance n) := by
      simp only [Engine.part, hown, Bool.false_eq_true, if_false]
    obtain ⟨m, others', hr, hm, hidentities, hchronicle⟩ := h.advance_left hd hown hinherits
    rw [hpart]
    refine ⟨m, others', hr, hm, ?_, ?_⟩
    · simp [hidentities, named, hown]
    · simp [hchronicle, concerns, hown]

omit hd in
/-- A task that is started is started in the mirror if it belongs to the family. -/
theorem part_opening {τ : Token} {f : Frame} (ha : a.opening? = some (τ, f)) :
    IsEchoed own ids voice e e' a (e.part own ids e' a) := by
  have hpart : e.part own ids e' a = if own e.next then [a] else [.mint] := by
    cases a with
    | run => rfl
    | resume => rfl
    | _ => cases ha
  have hact : ∀ e₀ : Engine, e₀.act a = (e₀.spawn τ [f]).2 := fun e₀ => by
    cases a with
    | run => cases ha; rfl
    | resume => cases ha; rfl
    | _ => cases ha
  have hsilent : (∀ e₀ : Engine, e₀.deeds a = []) ∧ e.named own a = [] := by
    cases a with
    | run => exact ⟨fun _ => rfl, rfl⟩
    | resume => exact ⟨fun _ => rfl, rfl⟩
    | _ => cases ha
  have hrouses : e.Rouses a (e.act a) := .none rfl (by rw [woken?, ha]; rfl)
  obtain ⟨hdeeds, hnamed⟩ := hsilent
  rw [hpart]
  cases hnext : own e.next with
  | true =>
    rw [if_pos rfl]
    refine ⟨_, others, hrouses, ?_, ?_, ?_⟩
    · rw [hact, after_cons, after_nil, hact]
      exact h.spawn hnext τ [f]
    · rw [hnamed, after_cons, after_nil, hact]
      rfl
    · simp [chronicle, hdeeds]
  | false =>
    rw [if_neg Bool.false_ne_true]
    refine ⟨_, others, hrouses, ?_, ?_, ?_⟩
    · rw [hact]
      exact h.spawn_left hnext τ [f]
    · rw [hnamed]
      rfl
    · rw [hdeeds, ite_self]
      rfl

theorem part_cut (n : Nat) : IsEchoed own ids voice e e' (.cut n) (e.part own ids e' (.cut n)) := by
  have htasks : (e.act (.cut n)).tasks ⊆ e.tasks := List.filter_sublist.subset
  cases hown : own n with
  | true =>
    have hpart : e.part own ids e' (.cut n) = [.cut n] := by
      simp only [Engine.part, hown, if_true]
    rw [hpart]
    refine hd.isEchoed others htasks (h.cut n) rfl ?_
    simp only [chronicle, deeds, h.task?_eq hown, concerns, hown, if_true, List.append_nil]
  | false =>
    have hpart : e.part own ids e' (.cut n) = [] := by simp [Engine.part, hown]
    rw [hpart]
    refine hd.isEchoed others htasks (h.cut_left hown) rfl ?_
    simp [chronicle, concerns, hown]

theorem part_cancel (τ : Token) :
    IsEchoed own ids voice e e' (.cancel τ) (e.part own ids e' (.cancel τ)) := by
  cases hτ : τ.isOwn own with
  | true =>
    have hpart : e.part own ids e' (.cancel τ) = [.cancel τ] := by
      simp only [Engine.part, hτ, if_true]
    rw [hpart]
    exact hd.isEchoed others (List.Subset.refl _) (h.cancel τ) rfl rfl
  | false =>
    have hpart : e.part own ids e' (.cancel τ) = [] := by simp [Engine.part, hτ]
    rw [hpart]
    exact hd.isEchoed others (List.Subset.refl _) (h.cancel_left hτ) rfl rfl

theorem part_cancelDelay (d : DispatcherId) (x : String) :
    IsEchoed own ids voice e e' (.cancelDelay d x) (e.part own ids e' (.cancelDelay d x)) := by
  have htasks : (e.act (.cancelDelay d x)).tasks ⊆ e.tasks := fun _ ht =>
    tasks_cancelDelay e d x ▸ ht
  cases hx : ids x with
  | true =>
    have hpart : e.part own ids e' (.cancelDelay d x) = [.cancelDelay d x] := by
      simp only [Engine.part, hx, if_true]
    rw [hpart]
    refine hd.isEchoed others htasks (h.cancelDelay d hx) ?_ rfl
    obtain ⟨pending, cancelled, heq, -⟩ := e'.cancelDelay_eq d x
    show ((e'.cancelDelay d x).getD e').identities = _
    rw [heq]
    rfl
  | false =>
    have hpart : e.part own ids e' (.cancelDelay d x) = [] := by simp [Engine.part, hx]
    rw [hpart]
    exact hd.isEchoed others htasks (h.cancelDelay_left d hx) rfl rfl

/-- **What an act does, before a continuation goes off, is echoed.** -/
theorem part (hinherits : e.Inherits own a)
    (hvoice : ∀ x ∈ (e.named own a).head?, ids x = true ∧ voice e'.identities = x) :
    IsEchoed own ids voice e e' a (e.part own ids e' a) := by
  cases a with
  | advance n => exact h.part_advance hd hinherits hvoice
  | run r τ q => exact h.part_opening rfl
  | resume r τ workflow inst event => exact h.part_opening rfl
  | wake place => exact h.part_wake hd place
  | drop place => exact h.part_drop hd place
  | cut n => exact h.part_cut hd n
  | cancel τ => exact h.part_cancel hd τ
  | cancelDelay d x => exact h.part_cancelDelay hd d x
  | openGate name =>
    exact hd.isEchoed others (List.Subset.refl _)
      { h with gates := congrArg (name :: ·) h.gates } rfl rfl
  | pass millis =>
    refine hd.isEchoed others (List.Subset.refl _)
      { h with scheduler := { h.scheduler with clock := ?_ } } rfl rfl
    show max e'.scheduler.timers.clock (e'.scheduler.timers.clock + millis) = _
    rw [h.scheduler.clock]
    rfl
  | mint =>
    exact hd.isEchoed others (List.Subset.refl _)
      { h with next := congrArg (· + 1) h.next } rfl rfl
  | addRunner registry services =>
    refine hd.isEchoed others (List.Subset.refl _) { h with
      next := congrArg (· + 2) h.next, runners := ?_, held := ?_ } rfl rfl
    · show e'.runners.put ⟨e'.next⟩ ⟨registry, services, ⟨e'.next + 1⟩⟩ = _
      rw [h.runners, h.next]
      rfl
    · show ⟨e'.next⟩ :: e'.held = _
      rw [h.held, h.next]
      rfl
  | releaseRunner r =>
    exact hd.isEchoed others (List.Subset.refl _)
      { h with held := congrArg (List.filter fun r' => r' != r) h.held } rfl rfl

/-- **What an act does is echoed.** -/
theorem echo (hinherits : e.Inherits own a) (hapart : (e.act a).IsApart own ids)
    (hvoice : ∀ x ∈ (e.named own a).head?, ids x = true ∧ voice e'.identities = x) :
    ∃ others', (e.act a).Mirrors own ids voice others' (e'.after (e.echo own ids e' a)) ∧
      (e'.after (e.echo own ids e' a)).identities = e'.identities + (e.named own a).length ∧
      e'.chronicle (e.echo own ids e' a) = if e.concerns own a then e.deeds a else [] := by
  obtain ⟨m, others', hr, hm, hidentities, hchronicle⟩ := h.part hd hinherits hvoice
  obtain ⟨hsame, hsilent⟩ := rousing_silent own e (e'.after (e.part own ids e' a)) a
  rw [Engine.echo, after_append, chronicle_append, hsilent, hchronicle, hsame, List.append_nil]
  exact ⟨others', hm.rousing hr hinherits hapart, hidentities, rfl⟩

end

end Mirrors

end Engine

end DurableFlow
