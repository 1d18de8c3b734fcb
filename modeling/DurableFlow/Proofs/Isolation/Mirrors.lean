import DurableFlow.Proofs.Families.MemberNumbers

/-!
# Mirrors of a family

An engine mirrors a family of another one if it has the tasks and the timers of the family and no
others, and if whatever the family can see of the two is the same: the positions of its instances,
its settlements, which of its tokens are cancelled, its live delays, the gates, the runners and the
clock (`Engine.Mirrors`). What wakes continuations need not be the same: the mirror leaves that to
whoever holds it.

Main statements: what is done for an instance of the family, and done in the mirror too, ends the
same way, and what is done for others leaves the mirror as it is (`Engine.Mirrors.save`,
`Engine.Mirrors.save_left` and so on).
-/

namespace DurableFlow

/-! ## Stores -/

namespace Backing

/-- Two backings hold the same rows for some instances. -/
def AgreesOn (ids : String → Bool) : Backing → Backing → Prop
  | memory t, memory t' => ∀ x, ids x = true → t'.get? x = t.get? x
  | database db, database db' =>
    db'.isOpen = db.isOpen ∧ ∀ x, ids x = true → db'.rows.get? x = db.rows.get? x
  | _, _ => False

namespace AgreesOn

variable {ids : String → Bool} {b b' : Backing} {x : String}

theorem refl (ids : String → Bool) (b : Backing) : b.AgreesOn ids b := by
  cases b with
  | memory t => exact fun _ _ => rfl
  | database db => exact ⟨rfl, fun _ _ => rfl⟩

theorem load (h : b.AgreesOn ids b') (hx : ids x = true) : b'.load x = b.load x := by
  cases b <;> cases b'
  · exact congrArg Except.ok (h x hx)
  · exact h.elim
  · exact h.elim
  · obtain ⟨hopen, hrows⟩ := h
    simp only [Backing.load, Database.load, hopen, hrows x hx]

/-- A save succeeds in both, or fails in both for the same reason. -/
theorem save (h : b.AgreesOn ids b') (x : String) (n : Nat) :
    (∃ c c', b.save x n = .ok c ∧ b'.save x n = .ok c' ∧ c.AgreesOn ids c') ∨
      ∃ error, b.save x n = .error error ∧ b'.save x n = .error error := by
  cases b <;> cases b'
  · refine .inl ⟨_, _, rfl, rfl, fun y hy => ?_⟩
    rw [Table.get?_put, Table.get?_put, h y hy]
  · exact h.elim
  · exact h.elim
  · obtain ⟨hopen, hrows⟩ := h
    simp only [Backing.save, Database.save, hopen]
    split
    · split
      · refine .inl ⟨_, _, rfl, rfl, rfl, fun y hy => ?_⟩
        rw [Table.get?_put, Table.get?_put, hrows y hy]
      · exact .inr ⟨_, rfl, rfl⟩
    · exact .inr ⟨_, rfl, rfl⟩

/-- A save for another instance is not noticed. -/
theorem save_left (h : b.AgreesOn ids b') (hx : ids x = false) {n : Nat} {c : Backing}
    (hc : b.save x n = .ok c) : c.AgreesOn ids b' := by
  have hne : ∀ y, ids y = true → y ≠ x := by
    rintro y hy rfl
    cases hx.symm.trans hy
  cases b <;> cases b'
  · cases hc
    intro y hy
    rw [Table.get?_put_of_ne _ _ (hne y hy), h y hy]
  · exact h.elim
  · exact h.elim
  · obtain ⟨hopen, hrows⟩ := h
    obtain ⟨db, hdb, rfl⟩ := save_database hc
    unfold Database.save at hdb
    split at hdb
    · split at hdb
      · cases hdb
        refine ⟨hopen, fun y hy => ?_⟩
        rw [Table.get?_put_of_ne _ _ (hne y hy), hrows y hy]
      · cases hdb
    · cases hdb

end AgreesOn

end Backing

/-- Two stores that do not fail by their numbers of calls, with the same rows for some instances. -/
structure Store.Mirrors (ids : String → Bool) (s s' : Store) : Prop where
  backing : s.backing.AgreesOn ids s'.backing
  saves : ∀ n, s.failsSaveAt n = false
  saves' : ∀ n, s'.failsSaveAt n = false
  loads : ∀ n, s.failsLoadAt n = false
  loads' : ∀ n, s'.failsLoadAt n = false

namespace Store

variable {s : Store}

theorem load_of_steady (h : ∀ n, s.failsLoadAt n = false) (x : String) :
    s.load x = ({ s with loads := s.loads + 1 }, s.backing.load x) := by
  simp [load, failsLoad, h]

theorem save_of_steady (h : ∀ n, s.failsSaveAt n = false) (x : String) (n : Nat) :
    s.save x n = match s.backing.save x n with
      | .ok b => ({ s with saves := s.saves + 1, backing := b }, .ok ())
      | .error error => ({ s with saves := s.saves + 1 }, .error error) := by
  rw [save, failsSave, h]
  rfl

namespace Mirrors

variable {ids : String → Bool} {s' : Store} {x : String}

theorem load (h : s.Mirrors ids s') (hx : ids x = true) :
    (s'.load x).2 = (s.load x).2 ∧ (s.load x).1.Mirrors ids (s'.load x).1 := by
  rw [load_of_steady h.loads, load_of_steady h.loads']
  exact ⟨h.backing.load hx, { h with }⟩

theorem load_left (h : s.Mirrors ids s') (x : String) : (s.load x).1.Mirrors ids s' := by
  rw [load_of_steady h.loads]
  exact { h with }

theorem save (h : s.Mirrors ids s') (x : String) (n : Nat) :
    (s'.save x n).2 = (s.save x n).2 ∧ (s.save x n).1.Mirrors ids (s'.save x n).1 := by
  rw [save_of_steady h.saves, save_of_steady h.saves']
  obtain ⟨c, c', hc, hc', hagrees⟩ | ⟨error, herror, herror'⟩ := h.backing.save x n
  · rw [hc, hc']
    exact ⟨rfl, { h with backing := hagrees }⟩
  · rw [herror, herror']
    exact ⟨rfl, { h with }⟩

theorem save_left (h : s.Mirrors ids s') (hx : ids x = false) (n : Nat) :
    (s.save x n).1.Mirrors ids s' := by
  rw [save_of_steady h.saves]
  cases hc : s.backing.save x n with
  | ok c => exact { h with backing := h.backing.save_left hx hc }
  | error error => exact { h with }

end Mirrors

end Store

/-! ## Schedulers -/

/-- The mode in which continuations are woken by hand, if at all. -/
def SchedulerMode.byHand : SchedulerMode → SchedulerMode
  | .clocked => .manual
  | mode => mode

/-- Two schedulers that show the same time and refuse the same calls, whatever their numbers; the
second one has armed the continuations of a family. -/
structure Scheduler.Mirrors (own : Nat → Bool) (s s' : Scheduler) : Prop where
  armed : s'.timers.armed.Perm (s.timers.armed.filter fun x => own x.work.delay)
  start : s'.timers.start = s.timers.start
  clock : s'.timers.clock = s.timers.clock
  mode : s'.mode = s.mode.byHand
  refuses : ∀ m n m' n', s'.refuses m' n' = s.refuses m n

namespace Scheduler

variable {own : Nat → Bool} {s s' : Scheduler} {cancelled cancelled' : List Token} {τ : Token}
  {k : Continuation}

namespace Mirrors

theorem now (h : s.Mirrors own s') : s'.timers.now = s.timers.now := by
  simp only [Timers.now, h.start, h.clock]

theorem deadline (h : s.Mirrors own s') (due : Instant) :
    s'.timers.deadline due = s.timers.deadline due := by
  simp only [Timers.deadline, h.now, h.clock]

/-- A continuation of the family is armed in both, or in neither for the same reason. -/
theorem schedule (h : s.Mirrors own s') (due : Instant)
    (hcancelled : τ.isCancelled cancelled' = τ.isCancelled cancelled) (hk : own k.delay = true) :
    (s'.schedule cancelled' due τ k).2 = (s.schedule cancelled due τ k).2 ∧
      (s.schedule cancelled due τ k).1.Mirrors own (s'.schedule cancelled' due τ k).1 := by
  have hrefuses := h.refuses s.calls s.accepted s'.calls s'.accepted
  have hmode := h.mode
  have harmed : (⟨s.timers.deadline due, τ, k⟩ :: s'.timers.armed).Perm
      ((⟨s.timers.deadline due, τ, k⟩ :: s.timers.armed).filter fun x => own x.work.delay) := by
    rw [List.filter_cons_of_pos (by exact hk)]
    exact h.armed.cons _
  unfold Scheduler.schedule
  rw [hrefuses, hcancelled]
  dsimp only
  split
  · exact ⟨rfl, { h with }⟩
  · split
    · exact ⟨rfl, { h with }⟩
    · cases hs : s.mode with
      | manual =>
        have hs' : s'.mode = .manual := by rw [hmode, hs]; rfl
        rw [hs']
        refine ⟨rfl, { h with armed := ?_, mode := rfl }⟩
        rw [h.deadline]
        exact (List.perm_append_singleton _ _).trans (harmed.trans
          ((List.perm_append_singleton _ _).symm.filter _))
      | clocked =>
        have hs' : s'.mode = .manual := by rw [hmode, hs]; rfl
        rw [hs']
        refine ⟨rfl, { h with armed := ?_, mode := rfl }⟩
        rw [h.deadline]
        exact (List.perm_append_singleton _ _).trans (harmed.trans
          ((Timers.place_perm _ _).symm.filter _))
      | absent =>
        have hs' : s'.mode = .absent := by rw [hmode, hs]; rfl
        rw [hs']
        exact ⟨rfl, { h with mode := rfl }⟩

/-- A continuation of others is armed without notice. -/
theorem schedule_left (h : s.Mirrors own s') (cancelled : List Token) (due : Instant) (τ : Token)
    (hk : own k.delay = false) :
    (s.schedule cancelled due τ k).1.Mirrors own s' := by
  have hfilter : ∀ {xs : List (Timer Continuation)} {deadline},
      xs.Perm (⟨deadline, τ, k⟩ :: s.timers.armed) →
      s'.timers.armed.Perm (xs.filter fun x => own x.work.delay) := by
    intro xs deadline hxs
    refine h.armed.trans (List.Perm.trans (.of_eq ?_) (hxs.filter _).symm)
    rw [List.filter_cons_of_neg (by simp [hk])]
  unfold Scheduler.schedule
  dsimp only
  split
  · exact { h with }
  · split
    · exact { h with }
    · cases hs : s.mode with
      | manual =>
        exact { h with
          armed := hfilter (List.perm_append_singleton _ _), mode := h.mode.trans (by rw [hs]) }
      | clocked =>
        exact { h with
          armed := hfilter (Timers.place_perm _ _), mode := h.mode.trans (by rw [hs]) }
      | absent => exact { h with mode := h.mode.trans (by rw [hs]) }

end Mirrors

end Scheduler

/-! ## Pending delays -/

/-- What a table of pending delays tells. -/
abbrev Delays := DispatcherId × String → Option PendingDelay

/-- Two tables have the same live delays of some instances, which are those under the tokens of a
family. -/
structure Delays.Mirrors (own : Nat → Bool) (ids : String → Bool) (cancelled : Token → Bool)
    (P P' : Delays) : Prop where
  live : ∀ d x p, ids x = true → cancelled p.token = false →
    (P' (d, x) = some p ↔ P (d, x) = some p)
  token : ∀ d x p, P (d, x) = some p → p.token.isOwn own = ids x
  token' : ∀ d x p, P' (d, x) = some p → p.token.isOwn own = true

theorem Delays.filter_true (o : Option PendingDelay) : o.filter (fun _ => true) = o := by
  cases o <;> rfl

namespace Delays.Mirrors

variable {own : Nat → Bool} {ids : String → Bool} {cancelled cancelled' : Token → Bool}
  {P P' : Delays} {p : PendingDelay} {x : String}

/-- Delays may be removed, the same live ones of the instances from both. -/
theorem filter (h : Mirrors own ids cancelled P P')
    {q q' : DispatcherId × String → PendingDelay → Bool}
    (hq : ∀ d x p, ids x = true → cancelled p.token = false → p.token.isOwn own = true →
      q' (d, x) p = q (d, x) p) :
    Mirrors own ids cancelled (fun k => (P k).filter (q k)) (fun k => (P' k).filter (q' k)) where
  live d x p hx hp := by
    rw [Option.filter_eq_some_iff, Option.filter_eq_some_iff, h.live d x p hx hp]
    exact and_congr_right fun hin => by rw [hq d x p hx hp ((h.token d x p hin).trans hx)]
  token d x p hp := h.token d x p (Option.filter_eq_some_iff.1 hp).1
  token' d x p hp := h.token' d x p (Option.filter_eq_some_iff.1 hp).1

theorem filter_left (h : Mirrors own ids cancelled P P')
    {q : DispatcherId × String → PendingDelay → Bool}
    (hq : ∀ d x p, ids x = true → cancelled p.token = false → q (d, x) p = true) :
    Mirrors own ids cancelled (fun k => (P k).filter (q k)) P' := by
  have hfilter : Mirrors own ids cancelled (fun k => (P k).filter (q k))
      (fun k => (P' k).filter fun _ => true) := h.filter fun d x p hx hp _ => (hq d x p hx hp).symm
  simpa only [filter_true] using hfilter

theorem put (h : Mirrors own ids cancelled P P') (d : DispatcherId) (hx : ids x = true)
    (hp : p.token.isOwn own = true) :
    Mirrors own ids cancelled (Function.update P (d, x) (some p))
      (Function.update P' (d, x) (some p)) where
  live d' y q hy hq := by
    rw [Function.update_apply, Function.update_apply]
    split
    · exact Iff.rfl
    · exact h.live d' y q hy hq
  token d' y q hq := by
    rw [Function.update_apply] at hq
    split at hq
    · rename_i heq
      cases hq
      cases heq
      rw [hp, hx]
    · exact h.token d' y q hq
  token' d' y q hq := by
    rw [Function.update_apply] at hq
    split at hq
    · cases hq
      exact hp
    · exact h.token' d' y q hq

theorem put_left (h : Mirrors own ids cancelled P P') (d : DispatcherId) (hx : ids x = false)
    (hp : p.token.isOwn own = false) :
    Mirrors own ids cancelled (Function.update P (d, x) (some p)) P' where
  live d' y q hy hq := by
    have hne : (d', y) ≠ (d, x) := by
      rintro ⟨⟩
      cases hx.symm.trans hy
    rw [Function.update_of_ne hne]
    exact h.live d' y q hy hq
  token d' y q hq := by
    rw [Function.update_apply] at hq
    split at hq
    · rename_i heq
      cases hq
      cases heq
      rw [hp, hx]
    · exact h.token d' y q hq
  token' := h.token'

/-- More tokens may be cancelled. -/
theorem mono (h : Mirrors own ids cancelled P P')
    (hle : ∀ τ, cancelled' τ = false → cancelled τ = false) :
    Mirrors own ids cancelled' P P' where
  live d x p hx hp := h.live d x p hx (hle _ hp)
  token := h.token
  token' := h.token'

end Delays.Mirrors

namespace Engine

theorem get?_erase_pending (e : Engine) (k : DispatcherId × String) :
    (e.pending.erase k).get? = fun k' => (e.pending.get? k').filter fun _ => decide (k' ≠ k) := by
  funext k'
  rw [Table.erase, Table.get?_filter]

theorem get?_track (e : Engine) (d : DispatcherId) (inst : String) (delay : PendingDelay) :
    (e.track d inst delay).pending.get? = Function.update
      (fun k => (e.pending.get? k).filter fun p => !(k.1 == d && e.isCancelled p.token))
      (d, inst) (some delay) := by
  funext k
  rw [Function.update_apply]
  show Table.get? (Table.put (Table.filter _ _) _ _) _ = _
  rw [Table.get?_put, Table.get?_filter]

theorem get?_untrack (e : Engine) (d : DispatcherId) (inst : String) (delay : Nat) :
    (e.untrack d inst delay).pending.get? = fun k =>
      (e.pending.get? k).filter fun p => !(decide (k = (d, inst)) && p.number == delay) := by
  funext k
  unfold untrack
  cases hp : e.pending.get? (d, inst) with
  | none =>
    dsimp only
    by_cases hk : k = (d, inst)
    · rw [hk, hp]
      rfl
    · simp [hk, Delays.filter_true]
  | some p =>
    dsimp only
    by_cases hk : k = (d, inst)
    · rw [hk, hp]
      split
      · rename_i hnumber
        simp [Option.filter, hnumber]
      · rename_i hnumber
        simp [hp, Option.filter, hnumber]
    · split
      · simp [Table.get?_erase_of_ne _ hk, hk, Delays.filter_true]
      · simp [hk, Delays.filter_true]

/-! ## Engines -/

/-- Lays a chain to rest as `suspend` does, but nothing that is due goes off. -/
def lay (e : Engine) (chain : Chain) (token : Token) (next : Nat) (due : Instant) :
    Engine × Except Fault Unit :=
  let (delay, e) := e.fresh
  let handle := token.child delay
  let e := e.track chain.dispatcher chain.inst ⟨delay, handle⟩
  let (scheduler, result) := e.scheduler.schedule e.cancelled due handle ⟨chain, next, delay⟩
  let e := { e with scheduler }
  match result with
  | .ok () => (e.record (.scheduled e.now due none), .ok ())
  | .error error =>
    ((e.untrack chain.dispatcher chain.inst delay).record (.scheduled e.now due (some error)),
      .error (.scheduler error))

theorem suspend_eq_lay (e : Engine) (chain : Chain) (token : Token) (next : Nat) (due : Instant) :
    e.suspend chain token next due = match e.lay chain token next due with
      | (e, .ok ()) => (e.releaseDue, .ok ())
      | (e, .error fault) => (e, .error fault) := by
  unfold suspend lay
  dsimp only
  generalize Scheduler.schedule _ _ _ _ _ = laid
  obtain ⟨scheduler, error | ⟨⟩⟩ := laid <;> rfl

/-- A chain that is laid to rest draws a number, and changes timers and entries only. -/
theorem lay_eq (e : Engine) (c : Chain) (τ : Token) (next : Nat) (due : Instant) :
    (e.lay c τ next due).1 = { e with
      next := e.next + 1
      scheduler := (e.lay c τ next due).1.scheduler
      pending := (e.lay c τ next due).1.pending
      journal := (e.lay c τ next due).1.journal } := by
  unfold lay
  dsimp only
  split
  · rfl
  · rw [untrack_eq]
    rfl

theorem pending_untrack (e e' : Engine) (h : e'.pending = e.pending) (d : DispatcherId)
    (inst : String) (delay : Nat) :
    (e'.untrack d inst delay).pending = (e.untrack d inst delay).pending := by
  unfold untrack
  rw [h]
  split
  · split
    · rfl
    · exact h
  · exact h

/-- A chain that is laid to rest is entered and its continuation armed, or neither if the scheduler
fails; entries of the same dispatcher are removed if their tokens are cancelled. -/
theorem lay_cases (e : Engine) (c : Chain) (τ : Token) (next : Nat) (due : Instant) :
    (e.lay c τ next due).1.cancelled = e.cancelled ∧
    (∀ k ≠ (c.dispatcher, c.inst), (e.lay c τ next due).1.pending.get? k =
      (e.pending.get? k).filter fun p => !(k.1 == c.dispatcher && e.isCancelled p.token)) ∧
    ((∃ deadline, (e.lay c τ next due).1.scheduler.timers.armed.Perm
        (⟨deadline, τ.child e.next, ⟨c, next, e.next⟩⟩ :: e.scheduler.timers.armed) ∧
      (e.lay c τ next due).1.pending.get? (c.dispatcher, c.inst) =
        some ⟨e.next, τ.child e.next⟩ ∧ (e.lay c τ next due).2 = .ok ()) ∨
    (e.lay c τ next due).1.scheduler.timers.armed = e.scheduler.timers.armed ∧
      (e.lay c τ next due).1.pending.get? (c.dispatcher, c.inst) = none ∧
      ∃ fault, (e.lay c τ next due).2 = .error fault) := by
  let m : Engine :=
    ({ e with next := e.next + 1 } : Engine).track c.dispatcher c.inst ⟨e.next, τ.child e.next⟩
  have htrack : m.pending.get? = Function.update
      (fun k => (e.pending.get? k).filter fun p => !(k.1 == c.dispatcher && e.isCancelled p.token))
      (c.dispatcher, c.inst) (some ⟨e.next, τ.child e.next⟩) := get?_track _ _ _ _
  have hcases := e.scheduler.schedule_cases e.cancelled due (τ.child e.next) ⟨c, next, e.next⟩
  cases hs : e.scheduler.schedule e.cancelled due (τ.child e.next) ⟨c, next, e.next⟩ with
  | mk s result =>
    have hs' : m.scheduler.schedule m.cancelled due (τ.child e.next) ⟨c, next, e.next⟩ =
        (s, result) := hs
    rw [hs] at hcases
    obtain ⟨rfl, -, -, harmed⟩ | ⟨error, rfl, htimers⟩ := hcases
    · obtain ⟨journal, hlay, hresult⟩ : ∃ journal, (e.lay c τ next due).1 =
          { m with scheduler := s, journal } ∧ (e.lay c τ next due).2 = .ok () := by
        simp only [lay, fresh]
        rw [hs']
        exact ⟨_, rfl, rfl⟩
      rw [hlay]
      refine ⟨rfl, fun k hk => ?_, .inl ⟨_, harmed, ?_, hresult⟩⟩
      · exact (congrFun htrack k).trans (Function.update_of_ne hk _ _)
      · exact (congrFun htrack _).trans (Function.update_self ..)
    · obtain ⟨journal, hlay, hresult⟩ : ∃ journal, (e.lay c τ next due).1 =
          { m with
            scheduler := s, journal, pending := (m.untrack c.dispatcher c.inst e.next).pending } ∧
          (e.lay c τ next due).2 = .error (.scheduler error) := by
        have hpending := pending_untrack m { m with scheduler := s } rfl c.dispatcher c.inst e.next
        simp only [lay, fresh]
        rw [hs']
        dsimp only
        rw [untrack_eq, ← hpending]
        exact ⟨_, rfl, rfl⟩
      have huntrack := get?_untrack m c.dispatcher c.inst e.next
      rw [hlay]
      refine ⟨rfl, fun k hk => ?_, .inr ⟨congrArg Timers.armed htimers, ?_, _, hresult⟩⟩
      · rw [huntrack, htrack]
        simp [hk]
      · rw [huntrack, htrack]
        simp [Option.filter]

/-- Delays have numbers of their own, also that of the chain that is laid to rest. -/
theorem nodup_lay {e : Engine} (c : Chain) (τ : Token) (next : Nat) (due : Instant)
    (hnodup : (e.scheduler.timers.armed.map fun x => x.work.delay).Nodup)
    (hlt : ∀ x ∈ e.scheduler.timers.armed, x.work.delay < e.next) :
    ((e.lay c τ next due).1.scheduler.timers.armed.map fun x => x.work.delay).Nodup := by
  obtain ⟨-, -, ⟨deadline, harmed, -⟩ | ⟨hsame, -⟩⟩ := e.lay_cases c τ next due
  · refine ((harmed.map _).nodup_iff).2 (List.nodup_cons.2 ⟨fun hin => ?_, hnodup⟩)
    obtain ⟨x, hx, hdelay⟩ := List.mem_map.1 hin
    exact absurd (hlt x hx) (by simp [hdelay])
  · rw [hsame]
    exact hnodup

/-- The second engine is what the first one is for a family: its numbers, its instances, and the
identities that are made up for it; so many more have been made up for others. -/
structure Mirrors (own : Nat → Bool) (ids : String → Bool) (voice : Nat → String) (others : Nat)
    (e e' : Engine) : Prop where
  tasks : e'.tasks = e.tasks.filter fun t => own t.number
  endings : e'.endings.filter (fun x => own x.1) = e.endings.filter fun x => own x.1
  store : e.store.Mirrors ids e'.store
  scheduler : e.scheduler.Mirrors own e'.scheduler
  refuses : ∀ m n topic, e'.refuses n topic = e.refuses m topic
  cancelled : ∀ τ, τ.isOwn own = true → e'.isCancelled τ = e.isCancelled τ
  settled : ∀ k : CompletionId, own k.number = true → e'.settled.get? k = e.settled.get? k
  delays : Delays.Mirrors own ids e.isCancelled e.pending.get? e'.pending.get?
  gates : e'.gates = e.gates
  runners : e'.runners = e.runners
  held : e'.held = e.held
  next : e'.next = e.next
  identity : e'.identity = voice
  identities : e.identities = e'.identities + others

namespace Mirrors

variable {own : Nat → Bool} {ids : String → Bool} {voice : Nat → String} {others : Nat}
  {e e' : Engine} {x : String} {τ : Token}

theorem now (h : Mirrors own ids voice others e e') : e'.now = e.now := h.scheduler.now

theorem record (h : Mirrors own ids voice others e e') (y : Occurrence) :
    Mirrors own ids voice others (e.record y) (e'.record y) := { h with }

theorem record_left (h : Mirrors own ids voice others e e') (y : Occurrence) :
    Mirrors own ids voice others (e.record y) e' := { h with }

theorem draw (h : Mirrors own ids voice others e e') (n : Nat) :
    Mirrors own ids voice others { e with next := n } { e' with next := n } := { h with next := rfl }

theorem load (h : Mirrors own ids voice others e e') (hx : ids x = true) :
    (e'.load x).2 = (e.load x).2 ∧ Mirrors own ids voice others (e.load x).1 (e'.load x).1 :=
  ⟨(h.store.load hx).1, { h with store := (h.store.load hx).2 }⟩

theorem load_left (h : Mirrors own ids voice others e e') (x : String) :
    Mirrors own ids voice others (e.load x).1 e' :=
  { h with store := h.store.load_left x }

theorem save (h : Mirrors own ids voice others e e') (x : String) (n : Nat) :
    (e'.save x n).2 = (e.save x n).2 ∧ Mirrors own ids voice others (e.save x n).1 (e'.save x n).1 :=
  ⟨(h.store.save x n).1, { h with store := (h.store.save x n).2 }⟩

theorem save_left (h : Mirrors own ids voice others e e') (hx : ids x = false) (n : Nat) :
    Mirrors own ids voice others (e.save x n).1 e' :=
  { h with store := h.store.save_left hx n }

theorem publish (h : Mirrors own ids voice others e e') (notice : Notice) :
    (e'.publish notice).2 = (e.publish notice).2 ∧
      Mirrors own ids voice others (e.publish notice).1 (e'.publish notice).1 := by
  unfold Engine.publish
  rw [h.refuses e.notices e'.notices]
  dsimp only
  split
  · exact ⟨rfl, { h with }⟩
  · exact ⟨rfl, { h with }⟩

theorem publish_left (h : Mirrors own ids voice others e e') (notice : Notice) :
    Mirrors own ids voice others (e.publish notice).1 e' := by
  unfold Engine.publish
  dsimp only
  split
  · exact { h with }
  · exact { h with }

theorem settle (h : Mirrors own ids voice others e e') (k : Option CompletionId) (s : Settlement) :
    Mirrors own ids voice others (e.settle k s) (e'.settle k s) := by
  cases k with
  | none => exact h
  | some k =>
    refine { h with settled := fun k' hk' => ?_ }
    show (e'.settled.put k s).get? k' = (e.settled.put k s).get? k'
    rw [Table.get?_put, Table.get?_put, h.settled k' hk']

theorem settle_left (h : Mirrors own ids voice others e e') {k : Option CompletionId}
    (hk : ∀ c ∈ k, own c.number = false) (s : Settlement) :
    Mirrors own ids voice others (e.settle k s) e' := by
  cases k with
  | none => exact h
  | some k =>
    refine { h with settled := fun k' hk' => ?_ }
    have hne : k' ≠ k := by
      rintro rfl
      cases (hk k' rfl).symm.trans hk'
    show e'.settled.get? k' = (e.settled.put k s).get? k'
    rw [Table.get?_put_of_ne _ _ hne, h.settled k' hk']

theorem cancel (h : Mirrors own ids voice others e e') (τ : Token) :
    Mirrors own ids voice others (e.cancel τ) (e'.cancel τ) := by
  refine { h with cancelled := fun σ hσ => ?_, delays := h.delays.mono fun σ hσ => ?_ }
  · have hsame := h.cancelled σ hσ
    simp only [isCancelled, Token.isCancelled] at hsame ⊢
    rw [Engine.cancel, Engine.cancel, List.any_cons, List.any_cons, hsame]
  · simp only [isCancelled, Token.isCancelled, Engine.cancel, List.any_cons,
      Bool.or_eq_false_iff] at hσ ⊢
    exact hσ.2

/-- Nobody of the family notices that a token is cancelled that is not one of the family. -/
theorem cancel_left (h : Mirrors own ids voice others e e') (hτ : τ.isOwn own = false) :
    Mirrors own ids voice others (e.cancel τ) e' := by
  refine { h with cancelled := fun σ hσ => ?_, delays := h.delays.mono fun σ hσ => ?_ }
  · have hwithin : σ.isWithin τ = false := by
      rw [Bool.eq_false_iff]
      intro hwithin
      cases hτ.symm.trans (Token.isOwn_of_isWithin hwithin hσ)
    have hsame := h.cancelled σ hσ
    simp only [isCancelled, Token.isCancelled] at hsame ⊢
    rw [Engine.cancel, List.any_cons, hwithin, hsame]
    rfl
  · simp only [isCancelled, Token.isCancelled, Engine.cancel, List.any_cons,
      Bool.or_eq_false_iff] at hσ ⊢
    exact hσ.2

theorem track (h : Mirrors own ids voice others e e') (d : DispatcherId) (hx : ids x = true)
    {p : PendingDelay} (hp : p.token.isOwn own = true) :
    Mirrors own ids voice others (e.track d x p) (e'.track d x p) := by
  refine { h with delays := ?_ }
  rw [get?_track, get?_track]
  refine (h.delays.filter fun d' y q hy hq hown => ?_).put d hx hp
  rw [h.cancelled q.token hown]

/-- What is tracked for others removes no live delay of the family. -/
theorem track_left (h : Mirrors own ids voice others e e') (d : DispatcherId) (hx : ids x = false)
    {p : PendingDelay} (hp : p.token.isOwn own = false) :
    Mirrors own ids voice others (e.track d x p) e' := by
  refine { h with delays := ?_ }
  rw [get?_track]
  refine (h.delays.filter_left fun d' y q hy hq => ?_).put_left d hx hp
  rw [hq, Bool.and_false]
  rfl

theorem untrack (h : Mirrors own ids voice others e e') (d : DispatcherId) (x : String) (n : Nat) :
    Mirrors own ids voice others (e.untrack d x n) (e'.untrack d x n) := by
  rw [untrack_eq e, untrack_eq e']
  refine { h with delays := ?_ }
  rw [get?_untrack, get?_untrack]
  exact h.delays.filter fun _ _ _ _ _ _ => rfl

theorem untrack_left (h : Mirrors own ids voice others e e') (d : DispatcherId)
    (hx : ids x = false) (n : Nat) : Mirrors own ids voice others (e.untrack d x n) e' := by
  rw [untrack_eq e]
  refine { h with delays := ?_ }
  rw [get?_untrack]
  refine h.delays.filter_left fun d' y q hy _ => ?_
  have hne : (d', y) ≠ (d, x) := by
    rintro ⟨⟩
    cases hx.symm.trans hy
  simp [hne]

/-- A chain of the family is laid to rest in both, or in neither for the same reason. -/
theorem lay (h : Mirrors own ids voice others e e') {c : Chain} (hc : ids c.inst = true)
    (hτ : τ.isOwn own = true) (hnext : own e.next = true) (next : Nat) (due : Instant) :
    (e'.lay c τ next due).2 = (e.lay c τ next due).2 ∧
      Mirrors own ids voice others (e.lay c τ next due).1 (e'.lay c τ next due).1 := by
  have hchild : (τ.child e.next).isOwn own = true := by rw [Token.isOwn_child, hnext, hτ]; rfl
  have htrack := (h.draw (e.next + 1)).track c.dispatcher hc
    (p := ⟨e.next, τ.child e.next⟩) hchild
  unfold Engine.lay fresh
  rw [h.next]
  dsimp only
  generalize Engine.track { e with next := e.next + 1 } _ _ _ = m at htrack ⊢
  generalize Engine.track { e' with next := e.next + 1 } _ _ _ = m' at htrack ⊢
  obtain ⟨hresult, hscheduler⟩ := htrack.scheduler.schedule due
    (htrack.cancelled _ hchild) (k := ⟨c, next, e.next⟩) hnext
  cases hs : m.scheduler.schedule m.cancelled due (τ.child e.next) ⟨c, next, e.next⟩ with
  | mk s result =>
    cases hs' : m'.scheduler.schedule m'.cancelled due (τ.child e.next) ⟨c, next, e.next⟩ with
    | mk s' result' =>
      rw [hs, hs'] at hresult hscheduler
      obtain rfl : result' = result := hresult
      have hm : Mirrors own ids voice others { m with scheduler := s }
          { m' with scheduler := s' } := { htrack with scheduler := hscheduler }
      cases result' with
      | ok _ => exact ⟨rfl, { hm with }⟩
      | error error => exact ⟨rfl, { hm.untrack c.dispatcher c.inst e.next with }⟩

/-- A chain of others is laid to rest, and a number is drawn for it. -/
theorem lay_left (h : Mirrors own ids voice others e e') {c : Chain} (hc : ids c.inst = false)
    (hnext : own e.next = false) (τ : Token) (next : Nat) (due : Instant) :
    Mirrors own ids voice others (e.lay c τ next due).1 { e' with next := e.next + 1 } := by
  have hchild : (τ.child e.next).isOwn own = false := by rw [Token.isOwn_child, hnext]; rfl
  have htrack := (h.draw (e.next + 1)).track_left c.dispatcher hc
    (p := ⟨e.next, τ.child e.next⟩) hchild
  unfold Engine.lay fresh
  dsimp only
  generalize Engine.track { e with next := e.next + 1 } _ _ _ = m at htrack ⊢
  have hscheduler := htrack.scheduler.schedule_left (k := ⟨c, next, e.next⟩) m.cancelled due
    (τ.child e.next) hnext
  cases hs : m.scheduler.schedule m.cancelled due (τ.child e.next) ⟨c, next, e.next⟩ with
  | mk s result =>
    rw [hs] at hscheduler
    have hm : Mirrors own ids voice others { m with scheduler := s }
        { e' with next := e.next + 1 } := { htrack with scheduler := hscheduler }
    cases result with
    | ok _ => exact { hm with }
    | error error => exact { hm.untrack_left c.dispatcher hc e.next with }

/-! ### Tasks and timers -/

theorem putTask (h : Mirrors own ids voice others e e') (t : Task) :
    Mirrors own ids voice others (e.putTask t) (e'.putTask t) := by
  refine { h with tasks := ?_ }
  have hown : ((fun u : Task => own u.number) ∘ fun u => if u.number == t.number then t else u) =
      fun u => own u.number := by
    funext u
    by_cases hu : u.number = t.number <;> simp [hu]
  show e'.tasks.map _ = (e.tasks.map _).filter _
  rw [List.filter_map, hown, h.tasks]

theorem putTask_left (h : Mirrors own ids voice others e e') {t : Task}
    (ht : own t.number = false) : Mirrors own ids voice others (e.putTask t) e' := by
  refine { h with tasks := ?_ }
  have hput := (h.putTask t).tasks
  rw [← hput]
  refine (List.map_id _).symm.trans (List.map_congr_left fun u hu => ?_)
  rw [h.tasks, List.mem_filter] at hu
  have hne : u.number ≠ t.number := fun heq => by simp [heq, ht] at hu
  simp [hne]

theorem endTask (h : Mirrors own ids voice others e e') (n : Nat) (ending : Ending) :
    Mirrors own ids voice others (e.endTask n ending) (e'.endTask n ending) := by
  refine { h with tasks := ?_, endings := ?_ }
  · show e'.tasks.filter _ = (e.tasks.filter _).filter _
    rw [h.tasks, List.filter_comm]
  · show (e'.endings ++ _).filter _ = (e.endings ++ _).filter _
    rw [List.filter_append, List.filter_append, h.endings]

theorem cut (h : Mirrors own ids voice others e e') (n : Nat) :
    Mirrors own ids voice others { e with tasks := e.tasks.filter fun t => t.number != n }
      { e' with tasks := e'.tasks.filter fun t => t.number != n } :=
  { h with tasks := by rw [h.tasks, List.filter_comm] }

theorem cut_left (h : Mirrors own ids voice others e e') {n : Nat} (hn : own n = false) :
    Mirrors own ids voice others { e with tasks := e.tasks.filter fun t => t.number != n } e' := by
  refine { h with tasks := ?_ }
  rw [List.filter_comm, ← h.tasks]
  refine (List.filter_eq_self.2 fun t ht => bne_iff_ne.2 ?_).symm
  rintro rfl
  rw [h.tasks, List.mem_filter, hn] at ht
  exact absurd ht.2 Bool.false_ne_true

theorem endTask_left (h : Mirrors own ids voice others e e') {n : Nat} (hn : own n = false)
    (ending : Ending) : Mirrors own ids voice others (e.endTask n ending) e' := by
  refine { h.cut_left hn with endings := ?_ }
  show _ = (e.endings ++ _).filter _
  rw [List.filter_append, h.endings]
  simp [hn]

theorem spawn (h : Mirrors own ids voice others e e') (hnext : own e.next = true) (τ : Token)
    (frames : List Frame) :
    Mirrors own ids voice others (e.spawn τ frames).2 (e'.spawn τ frames).2 := by
  refine { h with tasks := ?_, next := congrArg (· + 1) h.next }
  show e'.tasks ++ [_] = (e.tasks ++ [_]).filter _
  rw [List.filter_append, h.tasks, h.next, List.filter_cons_of_pos (by exact hnext)]
  rfl

theorem spawn_left (h : Mirrors own ids voice others e e') (hnext : own e.next = false) (τ : Token)
    (frames : List Frame) :
    Mirrors own ids voice others (e.spawn τ frames).2 { e' with next := e'.next + 1 } := by
  refine { h with tasks := ?_, next := congrArg (· + 1) h.next }
  show e'.tasks = (e.tasks ++ [_]).filter _
  rw [List.filter_append, h.tasks, List.filter_cons_of_neg (by simp [hnext]), List.filter_nil,
    List.append_nil]

theorem disarm (h : Mirrors own ids voice others e e') {place place' : Nat}
    {x : Timer Continuation} (hx : e.scheduler.timers.armed[place]? = some x)
    (hx' : e'.scheduler.timers.armed[place']? = some x) (hown : own x.work.delay = true) :
    Mirrors own ids voice others (e.disarm place) (e'.disarm place') := by
  have hleft := (armed_perm hx).filter fun x => own x.work.delay
  rw [List.filter_cons_of_pos (by exact hown)] at hleft
  have harmed := (armed_perm hx').symm.trans (h.scheduler.armed.trans hleft)
  exact { h with scheduler := { h.scheduler with armed := harmed.cons_inv } }

theorem disarm_left (h : Mirrors own ids voice others e e') {place : Nat} {x : Timer Continuation}
    (hx : e.scheduler.timers.armed[place]? = some x) (hown : own x.work.delay = false) :
    Mirrors own ids voice others (e.disarm place) e' := by
  have hleft := (armed_perm hx).filter fun x => own x.work.delay
  rw [List.filter_cons_of_neg (by simp [hown])] at hleft
  exact { h with scheduler := { h.scheduler with armed := h.scheduler.armed.trans hleft } }

/-- **A continuation of the family goes off in both.** -/
theorem wake (h : Mirrors own ids voice others e e') {place place' : Nat}
    {x : Timer Continuation} (hx : e.scheduler.timers.armed[place]? = some x)
    (hx' : e'.scheduler.timers.armed[place']? = some x) (hown : own x.work.delay = true)
    (hnext : own e.next = true) :
    Mirrors own ids voice others (e.act (.wake place)) (e'.act (.wake place')) := by
  have hresumed : Mirrors own ids voice others
      ((e.disarm place).resumeContinuation x.token x.work)
      ((e'.disarm place').resumeContinuation x.token x.work) := by
    refine ((h.disarm hx hx' hown).untrack _ _ _).spawn ?_ x.token _
    rw [untrack_eq]
    exact hnext
  simpa only [act, hx, hx'] using hresumed

/-- A continuation of others goes off, and a number is drawn for it. -/
theorem wake_left (h : Mirrors own ids voice others e e') {place : Nat} {x : Timer Continuation}
    (hx : e.scheduler.timers.armed[place]? = some x) (hown : own x.work.delay = false)
    (hinst : ids x.work.chain.inst = false) (hnext : own e.next = false) :
    Mirrors own ids voice others (e.act (.wake place)) (e'.act .mint) := by
  have hact : e.act (.wake place) = (e.disarm place).resumeContinuation x.token x.work := by
    simp only [act, hx]
  rw [hact]
  refine ((h.disarm_left hx hown).untrack_left _ hinst _).spawn_left ?_ x.token _
  rw [untrack_eq]
  exact hnext

end Mirrors

/-! ### Delays that are cancelled -/

/-- A delay that is cancelled is removed, and its token is cancelled. -/
theorem cancelDelay_eq (e : Engine) (d : DispatcherId) (inst : String) :
    ∃ pending cancelled, (e.cancelDelay d inst).getD e = { e with pending, cancelled } ∧
      pending.get? = (fun k => (e.pending.get? k).filter fun _ => decide (k ≠ (d, inst))) ∧
      ∀ σ : Token, σ.isCancelled cancelled =
        ((e.pending.get? (d, inst)).any (fun p => σ.isWithin p.token) || e.isCancelled σ) := by
  unfold cancelDelay
  cases hp : e.pending.get? (d, inst) with
  | some p =>
    exact ⟨e.pending.erase (d, inst), p.token :: e.cancelled, rfl, get?_erase_pending e _,
      fun σ => rfl⟩
  | none =>
    refine ⟨e.pending, e.cancelled, rfl, ?_, fun σ => rfl⟩
    funext k
    by_cases hk : k = (d, inst)
    · rw [hk, hp]
      rfl
    · simp [hk, Delays.filter_true]

namespace Mirrors

variable {own : Nat → Bool} {ids : String → Bool} {voice : Nat → String} {others : Nat}
  {e e' : Engine} {x : String}

/-- **A cancelled delay of the family is cancelled in both**; one that is not live is no matter. -/
theorem cancelDelay (h : Mirrors own ids voice others e e') (d : DispatcherId)
    (hx : ids x = true) :
    Mirrors own ids voice others ((e.cancelDelay d x).getD e) ((e'.cancelDelay d x).getD e') := by
  obtain ⟨pending, cancelled, heq, hpending, hcancelled⟩ := e.cancelDelay_eq d x
  obtain ⟨pending', cancelled', heq', hpending', hcancelled'⟩ := e'.cancelDelay_eq d x
  -- A delay under whose token a token lies that is not cancelled is live.
  have hlive : ∀ {p : PendingDelay} {σ : Token}, σ.isWithin p.token = true →
      e.isCancelled σ = false → e.isCancelled p.token = false := by
    intro p σ hwithin hσ
    rw [Bool.eq_false_iff] at hσ ⊢
    exact fun hp => hσ (Token.isCancelled_of_isWithin hwithin hp)
  rw [heq, heq']
  refine { h with cancelled := fun σ hσ => ?_, delays := ?_ }
  · show σ.isCancelled cancelled' = σ.isCancelled cancelled
    rw [hcancelled, hcancelled', h.cancelled σ hσ]
    cases hc : e.isCancelled σ with
    | true => rw [Bool.or_true, Bool.or_true]
    | false =>
      rw [Bool.or_false, Bool.or_false, Bool.eq_iff_iff, Option.any_eq_true, Option.any_eq_true]
      exact exists_congr fun p => and_congr_left fun hwithin =>
        h.delays.live d x p hx (hlive hwithin hc)
  · rw [hpending, hpending']
    refine (h.delays.filter fun _ _ _ _ _ _ => rfl).mono fun σ hσ => ?_
    have hσ : σ.isCancelled cancelled = false := hσ
    rw [hcancelled, Bool.or_eq_false_iff] at hσ
    exact hσ.2

/-- **Who cancels a delay of others cancels none of the family, nor removes one.** -/
theorem cancelDelay_left (h : Mirrors own ids voice others e e') (d : DispatcherId)
    (hx : ids x = false) :
    Mirrors own ids voice others ((e.cancelDelay d x).getD e) e' := by
  obtain ⟨pending, cancelled, heq, hpending, hcancelled⟩ := e.cancelDelay_eq d x
  rw [heq]
  refine { h with cancelled := fun σ hσ => ?_, delays := ?_ }
  · show e'.isCancelled σ = σ.isCancelled cancelled
    rw [hcancelled, h.cancelled σ hσ]
    refine (Bool.or_eq_right_iff_imp.2 fun hany => ?_).symm
    obtain ⟨p, hp, hwithin⟩ := (Option.any_eq_true _ _).1 hany
    have htoken := (h.delays.token d x p hp).symm.trans (Token.isOwn_of_isWithin hwithin hσ)
    cases hx.symm.trans htoken
  · rw [hpending]
    refine (h.delays.filter_left fun d' y q hy _ => ?_).mono fun σ hσ => ?_
    · refine decide_eq_true ?_
      rintro ⟨⟩
      cases hx.symm.trans hy
    · have hσ : σ.isCancelled cancelled = false := hσ
      rw [hcancelled, Bool.or_eq_false_iff] at hσ
      exact hσ.2

end Mirrors

end Engine

end DurableFlow
