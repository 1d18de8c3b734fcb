import DurableFlow.Proofs.Cancellation.CancelledRuns
import DurableFlow.Proofs.Isolation.Independence

/-!
# Pending delays

What the table of pending delays tells of an instance with one chain at a time. Every continuation
of it that is armed and not cancelled is entered, and every entry whose token is not cancelled is
backed by such a continuation (`Engine.Tallies`). An entry whose token is cancelled otherwise than
through the table stays, until another chain of the same dispatcher is laid to rest.

Main statements: `Engine.IsSolitary.pending_known`, and the entry that stays
(`DelayedRun.outlived`).
-/

namespace DurableFlow

namespace Timer

/-- The dispatcher and the instance of a chain that rests. -/
def key (x : Timer Continuation) : DispatcherId × String :=
  (x.work.chain.dispatcher, x.work.chain.inst)

/-- What is entered for a chain that rests. -/
def entry (x : Timer Continuation) : PendingDelay := ⟨x.work.delay, x.token⟩

end Timer

/-- The place of the continuation that is dropped by an act. -/
def Act.dropped? : Act → Option Nat
  | .drop place => some place
  | _ => none

namespace Engine

/-- The continuations of an instance that may still go off are entered. -/
structure Enters (k : DispatcherId × String) (e : Engine) : Prop where
  entered : ∀ x ∈ e.scheduler.timers.armed, x.key = k → e.isCancelled x.token = false →
    e.pending.get? k = some x.entry

/-- The continuations of an instance that may still go off are those that are entered: each of them
is, and an entry whose token is not cancelled is that of one of them. -/
structure Tallies (k : DispatcherId × String) (e : Engine) : Prop extends Enters k e where
  backed : ∀ p, e.pending.get? k = some p → e.isCancelled p.token = false →
    ∃ x ∈ e.scheduler.timers.armed, x.key = k ∧ x.entry = p

variable {e e' : Engine} {t : Task} {k : DispatcherId × String} {o : Origin} {c : Chain}
  {below : List Frame}

/-- No continuation of the instance may go off. -/
def IsClear (k : DispatcherId × String) (e : Engine) : Prop :=
  ∀ x ∈ e.scheduler.timers.armed, x.key = k → e.isCancelled x.token = true

/-- What is not cancelled was not cancelled before. -/
theorem isCancelled_of_suffix (h : e.cancelled <:+ e'.cancelled) {τ : Token}
    (hτ : e'.isCancelled τ = false) : e.isCancelled τ = false := by
  rw [Bool.eq_false_iff] at hτ ⊢
  exact fun hin => hτ (isCancelled_mono h hin)

/-- Whoever cancels a delay takes its entry away, and cancels what is within its token. -/
theorem isCancelled_of_cancelDelay {d : DispatcherId} {inst : String} {σ : Token}
    (h : (e.act (.cancelDelay d inst)).isCancelled σ = false) :
    (e.pending.get? (d, inst)).any (fun p => σ.isWithin p.token) = false ∧
      e.isCancelled σ = false := by
  obtain ⟨pending, cancelled, heq, -, hcancelled⟩ := e.cancelDelay_eq d inst
  rw [act, heq] at h
  have h : σ.isCancelled cancelled = false := h
  rw [hcancelled, Bool.or_eq_false_iff] at h
  exact h

theorem get?_cancelDelay (e : Engine) (d : DispatcherId) (inst : String) :
    (e.act (.cancelDelay d inst)).pending.get? =
      fun k => (e.pending.get? k).filter fun _ => decide (k ≠ (d, inst)) := by
  obtain ⟨pending, cancelled, heq, hpending, -⟩ := e.cancelDelay_eq d inst
  rw [act, heq]
  exact hpending

theorem get?_wake {place : Nat} {x : Timer Continuation}
    (hx : e.scheduler.timers.armed[place]? = some x) (k : DispatcherId × String) :
    (e.act (.wake place)).pending.get? k =
      (e.pending.get? k).filter fun p => !(decide (k = x.key) && p.number == x.work.delay) := by
  rw [act_wake hx]
  exact congrFun (e.get?_untrack x.work.chain.dispatcher x.work.chain.inst x.work.delay) k

/-- The others have other numbers than the continuation that goes off. -/
theorem delay_ne_of_nodup (hnodup : (e.scheduler.timers.armed.map fun x => x.work.delay).Nodup)
    {place : Nat} {x : Timer Continuation} (hx : e.scheduler.timers.armed[place]? = some x) :
    ∀ y ∈ (e.disarm place).scheduler.timers.armed, y.work.delay ≠ x.work.delay := by
  have hnodup := (((armed_perm hx).map fun x => x.work.delay).nodup_iff).1 hnodup
  intro y hy heq
  exact (List.nodup_cons.1 hnodup).1 (List.mem_map.2 ⟨y, hy, heq⟩)

theorem armed_wake {place : Nat} {x : Timer Continuation}
    (hx : e.scheduler.timers.armed[place]? = some x) :
    (e.act (.wake place)).scheduler.timers.armed = (e.disarm place).scheduler.timers.armed := by
  rw [act_wake hx]

theorem isCancelled_wake {place : Nat} {x : Timer Continuation}
    (hx : e.scheduler.timers.armed[place]? = some x) (τ : Token) :
    (e.act (.wake place)).isCancelled τ = e.isCancelled τ := by
  rw [act_wake hx]
  rfl

namespace Enters

/-- Tokens may be cancelled. -/
theorem mono (h : e.Enters k) (hpending : e'.pending.get? k = e.pending.get? k)
    (harmed : e'.scheduler.timers.armed = e.scheduler.timers.armed)
    (hcancelled : e.cancelled <:+ e'.cancelled) : e'.Enters k where
  entered x hx hk hc := by
    rw [hpending]
    exact h.entered x (harmed ▸ hx) hk (isCancelled_of_suffix hcancelled hc)

/-- A continuation may be dropped. -/
theorem disarm (h : e.Enters k) {place : Nat} {x : Timer Continuation}
    (hx : e.scheduler.timers.armed[place]? = some x) : (e.disarm place).Enters k where
  entered y hy := h.entered y ((armed_perm hx).mem_iff.2 (List.mem_cons_of_mem _ hy))

/-- A continuation that goes off is entered no more. -/
theorem wake (h : e.Enters k)
    (hnodup : (e.scheduler.timers.armed.map fun x => x.work.delay).Nodup) {place : Nat}
    {x : Timer Continuation} (hx : e.scheduler.timers.armed[place]? = some x) :
    (e.act (.wake place)).Enters k where
  entered y hy hk hc := by
    rw [armed_wake hx] at hy
    rw [isCancelled_wake hx] at hc
    have hentered := h.entered y ((armed_perm hx).mem_iff.2 (List.mem_cons_of_mem _ hy)) hk hc
    have hne : (y.entry.number == x.work.delay) = false :=
      beq_eq_false_iff_ne.2 (delay_ne_of_nodup hnodup hx y hy)
    rw [get?_wake hx]
    simp [hentered, Option.filter, hne]

/-- A delay that is cancelled is entered no more, and its continuation will not go off. -/
theorem cancelDelay (h : e.Enters k) (d : DispatcherId) (inst : String) :
    (e.act (.cancelDelay d inst)).Enters k where
  entered x hx hk hc := by
    obtain ⟨hapart, hc⟩ := isCancelled_of_cancelDelay hc
    have hx : x ∈ e.scheduler.timers.armed := by
      obtain ⟨pending, cancelled, heq, -, -⟩ := e.cancelDelay_eq d inst
      rw [act, heq] at hx
      exact hx
    have hentered := h.entered x hx hk hc
    have hne : k ≠ (d, inst) := by
      rintro rfl
      simp [hentered, Timer.entry] at hapart
    rw [get?_cancelDelay]
    simp [hentered, Option.filter, hne]

end Enters

namespace Tallies

/-- Tokens may be cancelled. -/
theorem mono (h : e.Tallies k) (hpending : e'.pending.get? k = e.pending.get? k)
    (harmed : e'.scheduler.timers.armed = e.scheduler.timers.armed)
    (hcancelled : e.cancelled <:+ e'.cancelled) : e'.Tallies k where
  toEnters := h.toEnters.mono hpending harmed hcancelled
  backed p hp hc := by
    rw [harmed]
    exact h.backed p (hpending ▸ hp) (isCancelled_of_suffix hcancelled hc)

/-- A continuation that nobody counts on may be dropped. -/
theorem disarm (h : e.Tallies k) {place : Nat} {x : Timer Continuation}
    (hx : e.scheduler.timers.armed[place]? = some x) (hc : e.isCancelled x.token = true) :
    (e.disarm place).Tallies k where
  toEnters := h.toEnters.disarm hx
  backed p hp hpc := by
    obtain ⟨y, hy, hk, rfl⟩ := h.backed p hp hpc
    rcases List.mem_cons.1 ((armed_perm hx).mem_iff.1 hy) with rfl | hy
    · cases hc.symm.trans hpc
    · exact ⟨y, hy, hk, rfl⟩

/-- A continuation that goes off is entered no more. -/
theorem wake (h : e.Tallies k)
    (hnodup : (e.scheduler.timers.armed.map fun x => x.work.delay).Nodup) {place : Nat}
    {x : Timer Continuation} (hx : e.scheduler.timers.armed[place]? = some x) :
    (e.act (.wake place)).Tallies k where
  toEnters := h.toEnters.wake hnodup hx
  backed p hp hc := by
    rw [get?_wake hx, Option.filter_eq_some_iff] at hp
    rw [isCancelled_wake hx] at hc
    rw [armed_wake hx]
    obtain ⟨hp, hkept⟩ := hp
    obtain ⟨y, hy, hk, rfl⟩ := h.backed p hp hc
    rcases List.mem_cons.1 ((armed_perm hx).mem_iff.1 hy) with rfl | hy
    · simp [← hk, Timer.entry] at hkept
    · exact ⟨y, hy, hk, rfl⟩

/-- A delay that is cancelled is entered no more, and its continuation will not go off. -/
theorem cancelDelay (h : e.Tallies k) (d : DispatcherId) (inst : String) :
    (e.act (.cancelDelay d inst)).Tallies k where
  toEnters := h.toEnters.cancelDelay d inst
  backed p hp hc := by
    rw [get?_cancelDelay, Option.filter_eq_some_iff] at hp
    obtain ⟨y, hy, hk⟩ := h.backed p hp.1 (isCancelled_of_cancelDelay hc).2
    obtain ⟨pending, cancelled, heq, -, -⟩ := e.cancelDelay_eq d inst
    rw [act, heq]
    exact ⟨y, hy, hk⟩

end Tallies

theorem isCancelled_lay (e : Engine) (c : Chain) (τ : Token) (next : Nat) (due : Instant)
    (σ : Token) : (e.lay c τ next due).1.isCancelled σ = e.isCancelled σ := by
  rw [isCancelled, (e.lay_cases c τ next due).1, isCancelled]

/-- The chains of other instances stay armed when a chain is laid to rest, and no others are. -/
theorem mem_armed_lay (τ : Token) (next : Nat) (due : Instant) (hk : k ≠ (c.dispatcher, c.inst))
    {x : Timer Continuation} (hx : x.key = k) :
    x ∈ (e.lay c τ next due).1.scheduler.timers.armed ↔ x ∈ e.scheduler.timers.armed := by
  obtain ⟨-, -, ⟨deadline, harmed, -⟩ | ⟨harmed, -⟩⟩ := e.lay_cases c τ next due
  · rw [harmed.mem_iff, List.mem_cons, or_iff_right]
    rintro rfl
    exact hk hx.symm
  · rw [harmed]

/-- **A chain that is laid to rest is entered**, in place of what nobody counts on. -/
theorem Enters.lay (h : e.Enters k) (τ : Token) (next : Nat) (due : Instant)
    (hclear : k = (c.dispatcher, c.inst) → e.IsClear k) : (e.lay c τ next due).1.Enters k where
  entered x hx hkey hlive := by
    rw [isCancelled_lay] at hlive
    obtain ⟨-, hothers, hcases⟩ := e.lay_cases c τ next due
    by_cases hk : k = (c.dispatcher, c.inst)
    · -- Nothing but the new continuation may go off.
      have hold : x ∉ e.scheduler.timers.armed := fun hx => by
        cases hlive.symm.trans (hclear hk x hx hkey)
      obtain ⟨deadline, harmed, hnew, -⟩ | ⟨harmed, -⟩ := hcases
      · rcases List.mem_cons.1 (harmed.mem_iff.1 hx) with rfl | hx
        · exact hk ▸ hnew
        · exact absurd hx hold
      · exact absurd (harmed ▸ hx) hold
    · have hlive' : e.isCancelled x.entry.token = false := hlive
      rw [hothers k hk, h.entered x ((mem_armed_lay τ next due hk hkey).1 hx) hkey hlive]
      simp [Option.filter, hlive']

theorem Tallies.lay (h : e.Tallies k) (τ : Token) (next : Nat) (due : Instant)
    (hclear : k = (c.dispatcher, c.inst) → e.IsClear k) : (e.lay c τ next due).1.Tallies k where
  toEnters := h.toEnters.lay τ next due hclear
  backed p hp hlive := by
    rw [isCancelled_lay] at hlive
    obtain ⟨-, hothers, hcases⟩ := e.lay_cases c τ next due
    by_cases hk : k = (c.dispatcher, c.inst)
    · obtain ⟨deadline, harmed, hnew, -⟩ | ⟨-, hnone, -⟩ := hcases
      · rw [← hk] at hnew
        cases hnew.symm.trans hp
        exact ⟨_, harmed.mem_iff.2 List.mem_cons_self, hk.symm, rfl⟩
      · rw [← hk] at hnone
        cases hnone.symm.trans hp
    · rw [hothers k hk] at hp
      obtain ⟨x, hx, hkey, hentry⟩ := h.backed p (Option.filter_eq_some_iff.1 hp).1 hlive
      exact ⟨x, (mem_armed_lay τ next due hk hkey).2 hx, hkey, hentry⟩

/-- At the end of the move by which a chain is laid to rest, nothing is entered any more. -/
theorem pending_suspend_le (e : Engine) (c : Chain) (τ : Token) (next : Nat) (due : Instant)
    {p : PendingDelay} (hp : (e.suspend c τ next due).1.pending.get? k = some p) :
    (e.lay c τ next due).1.pending.get? k = some p := by
  rw [suspend_eq_lay] at hp
  generalize e.lay c τ next due = laid at hp ⊢
  obtain ⟨m, result⟩ := laid
  cases result with
  | error fault => exact hp
  | ok _ =>
    dsimp only at hp ⊢
    obtain hsame | ⟨x, hx, hwake⟩ := releaseDue_eq m
    · rwa [hsame] at hp
    · rw [hwake, act_wake hx] at hp
      have hp : (m.untrack _ _ _).pending.get? k = some p := hp
      rw [get?_untrack, Option.filter_eq_some_iff] at hp
      exact hp.1

/-! ## Moves -/

/-- A move leaves timers and entries as they are, and may cancel a token. -/
structure Keeps (e e' : Engine) : Prop where
  pending : e'.pending = e.pending
  armed : e'.scheduler.timers.armed = e.scheduler.timers.armed
  cancelled : e.cancelled <:+ e'.cancelled

theorem Keeps.refl (e : Engine) : e.Keeps e := ⟨rfl, rfl, List.suffix_rfl⟩

/-- Unless a chain is laid to rest, a move leaves timers and entries as they are. -/
theorem keeps_move (e : Engine) (t : Task) : e.Keeps ((e.move t).engine e) ∨
    ∃ o c next due below, t.parked = false ∧
      t.frames = .driving o c (.acting ⟨[], .suspend next due⟩) :: below ∧
      (e.move t).engine e = (e.suspend c t.token next due).1 := by
  have himprints := e.imprints_move t
  generalize (e.move t).engine e = m at himprints ⊢
  cases himprints with
  | nothing => exact .inl (.refl e)
  | writes x => exact .inl ⟨rfl, rfl, List.suffix_rfl⟩
  | cancels => exact .inl ⟨rfl, rfl, List.suffix_cons _ _⟩
  | publishes notice =>
    rw [publish_eq]
    exact .inl ⟨rfl, rfl, List.suffix_rfl⟩
  | settles ht s =>
    rw [settle_eq]
    exact .inl ⟨rfl, rfl, List.suffix_rfl⟩
  | saves hp ht => exact .inl ⟨rfl, rfl, List.suffix_rfl⟩
  | rests hp ht => exact .inr ⟨_, _, _, _, _, hp, ht, rfl⟩
  | consults q journal => exact .inl ⟨rfl, rfl, List.suffix_rfl⟩
  | starts q journal => exact .inl ⟨rfl, rfl, List.suffix_rfl⟩

/-! ## Histories -/

/-- How many chains of an instance there are: those that tasks take on, and those that rest and may
still go on. -/
def chainsOf (k : DispatcherId × String) (e : Engine) : Nat :=
  ((e.frames.filterMap Frame.chain?).countP fun c => (c.dispatcher, c.inst) = k) +
    e.scheduler.timers.armed.countP fun x => x.key = k ∧ e.isCancelled x.token = false

/-- If a task takes on a chain of an instance that has no other one, none of the instance rests. -/
theorem isClear_of_driving (hone : e.chainsOf k ≤ 1) (ht : t ∈ e.tasks) {stage : Stage}
    (hframes : t.frames = .driving o c stage :: below) (hk : k = (c.dispatcher, c.inst)) :
    e.IsClear k := by
  have hmem : c ∈ e.frames.filterMap Frame.chain? :=
    List.mem_filterMap.2 ⟨.driving o c stage,
      List.mem_flatMap.2 ⟨t, ht, hframes ▸ List.mem_cons_self⟩, rfl⟩
  have hpos : 0 < (e.frames.filterMap Frame.chain?).countP fun c => (c.dispatcher, c.inst) = k :=
    List.countP_pos_iff.2 ⟨c, hmem, decide_eq_true hk.symm⟩
  intro x hx hkey
  by_contra hlive
  have hresting : 0 < e.scheduler.timers.armed.countP
      fun x => x.key = k ∧ e.isCancelled x.token = false :=
    List.countP_pos_iff.2 ⟨x, hx, decide_eq_true ⟨hkey, by simpa using hlive⟩⟩
  unfold chainsOf at hone
  omega

/-- Those that rest have numbers of their own, which have been drawn. -/
structure IsNumbered (e : Engine) : Prop where
  nodup : (e.scheduler.timers.armed.map fun x => x.work.delay).Nodup
  lt_next : ∀ x ∈ e.scheduler.timers.armed, x.work.delay < e.next

theorem IsNew.isNumbered (h : e.IsNew) (as : List Act) : (e.after as).IsNumbered where
  nodup := by
    have hnumbers := h.nodup_numbers as
    rw [members, Multiset.map_add] at hnumbers
    have htimers := (Multiset.nodup_add.1 hnumbers).2.1
    rw [Member.timers, Multiset.map_coe, Multiset.coe_nodup, List.map_map] at htimers
    exact htimers
  lt_next x hx := by
    have hmarked := (h.sound .any).isMarked_after h.isMarked as (.timer x)
      (Multiset.mem_add.2 (.inr (Member.mem_timers.2 ⟨x, hx, rfl⟩)))
    exact hmarked.2

/-- What an act has to do with the continuations that are armed and with what is entered. -/
inductive Touches (e : Engine) : Act → Prop
  | nothing {a} (h : e.Keeps (e.act a)) : Touches e a
  /-- A chain is laid to rest. -/
  | rests {n t o c next due below} (ht : e.task? n = some t) (hp : t.parked = false)
      (hframes : t.frames = .driving o c (.acting ⟨[], .suspend next due⟩) :: below)
      (h : (e.suspend c t.token next due).1.Keeps (e.act (.advance n)))
      (hnext : (e.act (.advance n)).next = (e.suspend c t.token next due).1.next) :
      Touches e (.advance n)
  | wakes {place x} (hx : e.scheduler.timers.armed[place]? = some x) : Touches e (.wake place)
  | drops {place x} (hx : e.scheduler.timers.armed[place]? = some x) : Touches e (.drop place)
  | revokes (d inst) : Touches e (.cancelDelay d inst)

/-- **Every act is one of those.** -/
theorem touches (e : Engine) (a : Act) : e.Touches a := by
  cases a with
  | advance n =>
    cases ht : e.task? n with
    | none =>
      have hact : e.act (.advance n) = e := Engine.act_advance_none ht
      exact .nothing (hact.symm ▸ .refl e)
    | some t =>
      -- How the task is left does not matter.
      have hact : ((e.move t).engine e).Keeps (e.act (.advance n)) ∧
          (e.act (.advance n)).next = ((e.move t).engine e).next := by
        obtain ⟨tasks, endings, hact⟩ := act_advance_eq ht
        rw [hact]
        exact ⟨⟨rfl, rfl, List.suffix_rfl⟩, rfl⟩
      obtain hkeeps | ⟨o, c, next, due, below, hp, hframes, hsuspend⟩ := e.keeps_move t
      · exact .nothing ⟨hact.1.pending.trans hkeeps.pending, hact.1.armed.trans hkeeps.armed,
          hkeeps.cancelled.trans hact.1.cancelled⟩
      · rw [hsuspend] at hact
        exact .rests ht hp hframes hact.1 hact.2
  | wake place =>
    cases hx : e.scheduler.timers.armed[place]? with
    | some x => exact .wakes hx
    | none =>
      refine .nothing ?_
      simp only [act, hx]
      exact .refl e
  | drop place =>
    cases hx : e.scheduler.timers.armed[place]? with
    | some x => exact .drops hx
    | none =>
      have hle : e.scheduler.timers.armed.length ≤ place := List.getElem?_eq_none_iff.1 hx
      exact .nothing ⟨rfl, List.eraseIdx_of_length_le hle, List.suffix_rfl⟩
  | cancelDelay d inst => exact .revokes d inst
  | cancel token => exact .nothing ⟨rfl, rfl, List.suffix_cons _ _⟩
  | _ => exact .nothing ⟨rfl, rfl, List.suffix_rfl⟩

/-- What laying a chain to rest makes true is true at the end of the move, if it stays true when a
continuation goes off. -/
theorem suspend_of_lay {P : Engine → Prop} (hnumbered : e.IsNumbered) (τ : Token) (next : Nat)
    (due : Instant) (hlay : P (e.lay c τ next due).1)
    (hwake : ∀ {m : Engine} {x : Timer Continuation}, P m →
      (m.scheduler.timers.armed.map fun x => x.work.delay).Nodup →
      m.scheduler.timers.armed[0]? = some x → P (m.act (.wake 0))) :
    P (e.suspend c τ next due).1 := by
  have hnodup := nodup_lay c τ next due hnumbered.nodup hnumbered.lt_next
  rw [suspend_eq_lay]
  generalize e.lay c τ next due = laid at hlay hnodup ⊢
  obtain ⟨m, result⟩ := laid
  cases result with
  | error fault => exact hlay
  | ok _ =>
    obtain hsame | ⟨x, hx, hwoken⟩ := releaseDue_eq m
    · dsimp only
      rw [hsame]
      exact hlay
    · dsimp only
      rw [hwoken]
      exact hwake hlay hnodup hx

/-- **Every act keeps the continuations entered** that may still go off. -/
theorem Enters.act (h : e.Enters k) (hnumbered : e.IsNumbered) (hone : e.chainsOf k ≤ 1)
    (a : Act) : (e.act a).Enters k := by
  cases e.touches a with
  | nothing hkeeps =>
    exact h.mono (congrArg (Table.get? · k) hkeeps.pending) hkeeps.armed hkeeps.cancelled
  | @rests n t o c next due below ht _ hframes hkeeps _ =>
    have hclear := isClear_of_driving hone (task?_eq_some ht).1 hframes
    have hrests := suspend_of_lay (P := Enters k) hnumbered t.token next due
      (h.lay t.token next due hclear) fun hm hnodup hx => hm.wake hnodup hx
    exact hrests.mono (congrArg (Table.get? · k) hkeeps.pending) hkeeps.armed hkeeps.cancelled
  | wakes hx => exact h.wake hnumbered.nodup hx
  | drops hx => exact h.disarm hx
  | revokes d inst => exact h.cancelDelay d inst

/-- **Every act keeps the table right**, if nothing is dropped that may still go off. -/
theorem Tallies.act (h : e.Tallies k) (hnumbered : e.IsNumbered) (hone : e.chainsOf k ≤ 1) {a : Act}
    (hdrop : ∀ place x, a = .drop place → e.scheduler.timers.armed[place]? = some x →
      e.isCancelled x.token = true) : (e.act a).Tallies k := by
  cases e.touches a with
  | nothing hkeeps =>
    exact h.mono (congrArg (Table.get? · k) hkeeps.pending) hkeeps.armed hkeeps.cancelled
  | @rests n t o c next due below ht _ hframes hkeeps _ =>
    have hclear := isClear_of_driving hone (task?_eq_some ht).1 hframes
    have hrests := suspend_of_lay (P := Tallies k) hnumbered t.token next due
      (h.lay t.token next due hclear) fun hm hnodup hx => hm.wake hnodup hx
    exact hrests.mono (congrArg (Table.get? · k) hkeeps.pending) hkeeps.armed hkeeps.cancelled
  | wakes hx => exact h.wake hnumbered.nodup hx
  | drops hx => exact h.disarm hx (hdrop _ _ rfl hx)
  | revokes d inst => exact h.cancelDelay d inst

/-- A history with one chain of an instance at a time, in which continuations are dropped only once
they are cancelled. -/
structure IsSolitary (k : DispatcherId × String) (e : Engine) (as : List Act) : Prop where
  new : e.IsNew
  pending : e.pending = .empty
  one : ∀ before, before <+: as → (e.after before).chainsOf k ≤ 1
  dropped : ∀ before place after x, as = before ++ .drop place :: after →
    (e.after before).scheduler.timers.armed[place]? = some x →
      (e.after before).isCancelled x.token = true

namespace IsSolitary

variable {as bs : List Act}

theorem left (h : e.IsSolitary k (as ++ bs)) : e.IsSolitary k as where
  new := h.new
  pending := h.pending
  one before hbefore := h.one before (hbefore.trans (List.prefix_append _ _))
  dropped before place after x has := h.dropped before place (after ++ bs) x (by simp [has])

/-- **Throughout such a history the table is right.** -/
theorem tallies (h : e.IsSolitary k as) : (e.after as).Tallies k := by
  induction as using List.reverseRecOn with
  | nil =>
    refine ⟨⟨by simp [h.new.armed]⟩, fun p hp => ?_⟩
    rw [after_nil, h.pending] at hp
    cases hp
  | append_singleton as a ih =>
    rw [after_concat]
    exact (ih h.left).act (h.new.isNumbered as) (h.one as (List.prefix_append _ _))
      fun place x ha hx => h.dropped as place [] x (ha ▸ rfl) hx

/-- **What is told of pending delays.** An instance has a pending delay if a continuation of it is
armed that may still go off, or if the token of its last delay has been cancelled and nobody has
noticed. That is noticed as soon as the chain of another instance of the same dispatcher is laid to
rest. Who cancels the delay is told the same; afterwards the instance has none, no continuation of
it will go off, and nothing else has changed. -/
theorem pending_known (h : e.IsSolitary k as) :
    ((e.after as).hasPending k.1 k.2 = true ↔
      (∃ x ∈ (e.after as).scheduler.timers.armed, x.key = k ∧
        (e.after as).isCancelled x.token = false) ∨
      ∃ p, (e.after as).pending.get? k = some p ∧ (e.after as).isCancelled p.token = true) ∧
    (∀ c τ next due, c.dispatcher = k.1 → c.inst ≠ k.2 →
      ∀ p, ((e.after as).suspend c τ next due).1.pending.get? k = some p →
        (e.after as).isCancelled p.token = false) ∧
    ((e.after as).cancelDelay k.1 k.2).isSome = (e.after as).hasPending k.1 k.2 ∧
    ∀ m, (e.after as).cancelDelay k.1 k.2 = some m →
      m.hasPending k.1 k.2 = false ∧ m.IsClear k ∧
      ∃ p pending, (e.after as).pending.get? k = some p ∧
        m = { (e.after as) with pending, cancelled := p.token :: (e.after as).cancelled } ∧
        ∀ k' ≠ k, m.pending.get? k' = (e.after as).pending.get? k' := by
  have htallies := h.tallies
  refine ⟨?_, ?_, ?_, ?_⟩
  · rw [hasPending, Table.contains, Option.isSome_iff_exists]
    constructor
    · rintro ⟨p, hp⟩
      cases hc : (e.after as).isCancelled p.token with
      | true => exact .inr ⟨p, hp, hc⟩
      | false =>
        obtain ⟨x, hx, hk, rfl⟩ := htallies.backed p hp hc
        exact .inl ⟨x, hx, hk, hc⟩
    · rintro (⟨x, hx, hk, hc⟩ | ⟨p, hp, -⟩)
      · exact ⟨x.entry, htallies.entered x hx hk hc⟩
      · exact ⟨p, hp⟩
  · intro c τ next due hd hinst p hp
    have hk : k ≠ (c.dispatcher, c.inst) := by
      rintro rfl
      exact hinst rfl
    have hp := (e.after as).pending_suspend_le c τ next due hp
    rw [((e.after as).lay_cases c τ next due).2.1 k hk, Option.filter_eq_some_iff] at hp
    simpa [hd] using hp.2
  · simp [Engine.cancelDelay, hasPending, Table.contains]
  · intro m hm
    obtain ⟨p, hp, rfl⟩ := Option.map_eq_some_iff.1 hm
    have hcancelled : ((e.after as).act (.cancelDelay k.1 k.2)).Tallies k :=
      htallies.cancelDelay k.1 k.2
    have hact : (e.after as).act (.cancelDelay k.1 k.2) =
        { (e.after as) with pending := (e.after as).pending.erase (k.1, k.2) }.cancel p.token := by
      simp [Engine.act, Engine.cancelDelay, hp]
    rw [hact] at hcancelled
    have hnone : Table.get? ((e.after as).pending.erase (k.1, k.2)) k = none :=
      Table.get?_erase_self _ _
    refine ⟨?_, ?_, p, _, hp, rfl, ?_⟩
    · simp [hasPending, Table.contains, cancel]
    · intro x hx hk
      by_contra hc
      have hentered := hcancelled.entered x hx hk (by simpa using hc)
      cases hnone.symm.trans hentered
    · intro k' hk'
      exact Table.get?_erase_of_ne _ hk'

end IsSolitary

end Engine

namespace DelayedRun

/-- A workflow that waits for a while. -/
def registry : Registry :=
  ⟨.put .empty "nap" ⟨"nap", [.delay .moment, .deciding fun _ => .proceed]⟩⟩

/-- A run of an instance up to its delay. -/
def rests (inst : String) (token number : Nat) : List Act :=
  .run ⟨0⟩ (.root token) { workflow := "nap", inst := some inst } ::
    .replicate 7 (.advance number)

/-- The first instance rests, its run is cancelled, and its continuation is dropped. -/
def acts : List Act :=
  .addRunner registry .empty :: rests "x" 100 2 ++ [.cancel (.root 100), .drop 0]

theorem isSolitary : Greeting.engine.IsSolitary (⟨1⟩, "x") acts where
  new := ⟨rfl, rfl, rfl, rfl⟩
  pending := rfl
  one before h := by
    have hone : ∀ before ∈ acts.inits,
        (Greeting.engine.after before).chainsOf (⟨1⟩, "x") ≤ 1 := by decide +kernel
    exact hone before ((List.mem_inits _ _).2 h)
  dropped before place after x has hx := by
    have hdropped : ∀ before a after, acts = before ++ a :: after → ∀ place ∈ a.dropped?,
        ∀ x ∈ (Greeting.engine.after before).scheduler.timers.armed[place]?,
          (Greeting.engine.after before).isCancelled x.token = true :=
      Act.forall_split (by decide +kernel)
    exact hdropped before _ after has place rfl x hx

/-- While the instance rests it is told to have a pending delay, and who cancels it is told so. -/
theorem counted_on :
    Greeting.engine.IsSolitary (⟨1⟩, "x") (acts.take 9) ∧
      (Greeting.engine.after (acts.take 9)).hasPending ⟨1⟩ "x" = true ∧
      ((Greeting.engine.after (acts.take 9)).cancelDelay ⟨1⟩ "x").isSome = true ∧
      ∃ x ∈ (Greeting.engine.after (acts.take 9)).scheduler.timers.armed,
        x.key = (⟨1⟩, "x") ∧ (Greeting.engine.after (acts.take 9)).isCancelled x.token = false := by
  have hwhole : Greeting.engine.IsSolitary (⟨1⟩, "x") (acts.take 9 ++ acts.drop 9) := isSolitary
  have hsolitary := hwhole.left
  obtain ⟨hknown, -, hcancel, -⟩ := hsolitary.pending_known
  have hpending : (Greeting.engine.after (acts.take 9)).hasPending ⟨1⟩ "x" = true := by
    decide +kernel
  refine ⟨hsolitary, hpending, hcancel.trans hpending, ?_⟩
  obtain hlive | ⟨p, hp, hc⟩ := hknown.1 hpending
  · exact hlive
  · have hnone : ∀ p ∈ (Greeting.engine.after (acts.take 9)).pending.get? (⟨1⟩, "x"),
        (Greeting.engine.after (acts.take 9)).isCancelled p.token = false := by decide +kernel
    cases (hnone p hp).symm.trans hc

/-- **An entry outlives its continuation.** The run has been cancelled and nothing is armed any
more, but the instance is still told to have a pending delay, and so is who cancels it; until
another instance rests. -/
theorem outlived :
    Greeting.engine.IsSolitary (⟨1⟩, "x") acts ∧
      (Greeting.engine.after acts).scheduler.timers.armed.length = 0 ∧
      (Greeting.engine.after acts).hasPending ⟨1⟩ "x" = true ∧
      ((Greeting.engine.after acts).cancelDelay ⟨1⟩ "x").isSome = true ∧
      (Greeting.engine.after (acts ++ rests "y" 101 5)).hasPending ⟨1⟩ "x" = false :=
  ⟨isSolitary, by decide +kernel, by decide +kernel, by decide +kernel, by decide +kernel⟩

end DelayedRun

end DurableFlow
