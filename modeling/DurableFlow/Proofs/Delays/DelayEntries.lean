import DurableFlow.Proofs.Delays.PendingDelays

/-!
# Entries of pending delays

The table of pending delays holds one entry for each instance of a dispatcher, that of its last
delay. An entry has a number that is greater than those of all entries before, and a continuation
that goes off or cannot be armed takes away the entry of its own number only.

Main statement: whatever becomes of older continuations of an instance, the entry of a later delay
of it stays (`Engine.IsNew.outlasts`).
-/

namespace DurableFlow

/-- Whether a chain was laid to rest by a deed, or was to be. -/
def Deed.isDelay : Deed → Bool
  | .suspended _ | .unscheduled _ => true
  | _ => false

namespace Engine

variable {e : Engine} {k : DispatcherId × String} {p : PendingDelay} {a : Act} {t : Task} {n : Nat}
  {o : Origin} {c : Chain} {next : Nat} {due : Instant} {below : List Frame}

/-! ## What lays a chain to rest -/

theorem result_suspend (e : Engine) (c : Chain) (τ : Token) (next : Nat) (due : Instant) :
    (e.suspend c τ next due).2 = (e.lay c τ next due).2 := by
  rw [suspend_eq_lay]
  generalize e.lay c τ next due = laid
  obtain ⟨m, result⟩ := laid
  cases result <;> rfl

/-- What is done when a task lays a chain to rest. -/
theorem deeds_of_rests (ht : e.task? n = some t) (hp : t.parked = false)
    (hframes : t.frames = .driving o c (.acting ⟨[], .suspend next due⟩) :: below) :
    ((e.suspend c t.token next due).2 = .ok () ∧ e.deeds (.advance n) = [(c, .suspended next)]) ∨
      (∃ fault, (e.suspend c t.token next due).2 = .error fault) ∧
        e.deeds (.advance n) = [(c, .unscheduled next)] := by
  have hdeeds : e.deeds (.advance n) =
      ((e.deed? t.token c (.acting ⟨[], .suspend next due⟩)).map (c, ·)).toList := by
    simp [deeds, ht, deedsOf, hp, hframes]
  rw [hdeeds, deed?]
  cases hresult : (e.suspend c t.token next due).2 with
  | ok _ => exact .inl ⟨rfl, rfl⟩
  | error fault => exact .inr ⟨⟨fault, rfl⟩, rfl⟩

/-! ## Old and new entries -/

/-- **An entry that was not there before** has the number that came next, and its chain was laid to
rest. -/
theorem entry_cases (hp : (e.act a).pending.get? k = some p) :
    e.pending.get? k = some p ∨ p.number = e.next ∧ e.next < (e.act a).next ∧
      ∃ c next, (c, .suspended next) ∈ e.deeds a ∧ (c.dispatcher, c.inst) = k := by
  cases e.touches a with
  | nothing hkeeps => exact .inl (hkeeps.pending ▸ hp)
  | @rests n t o c next due below ht hparked hframes hkeeps hnext =>
    rw [hkeeps.pending] at hp
    have hp := e.pending_suspend_le c t.token next due hp
    obtain ⟨-, hothers, hcases⟩ := e.lay_cases c t.token next due
    by_cases hk : k = (c.dispatcher, c.inst)
    · obtain ⟨deadline, -, hnew, hresult⟩ | ⟨-, hnone, -⟩ := hcases
      · rw [← hk] at hnew
        cases hnew.symm.trans hp
        rw [← result_suspend] at hresult
        obtain ⟨-, hdeeds⟩ | ⟨⟨fault, hfault⟩, -⟩ := deeds_of_rests ht hparked hframes
        · refine .inr ⟨rfl, hnext ▸ next_lt_suspend e c t.token next due, c, next, ?_, hk.symm⟩
          rw [hdeeds]
          exact List.mem_singleton_self _
        · cases hresult.symm.trans hfault
      · rw [← hk] at hnone
        cases hnone.symm.trans hp
    · rw [hothers k hk] at hp
      exact .inl (Option.filter_eq_some_iff.1 hp).1
  | wakes hx =>
    rw [get?_wake hx] at hp
    exact .inl (Option.filter_eq_some_iff.1 hp).1
  | drops hx => exact .inl hp
  | revokes d inst =>
    rw [get?_cancelDelay] at hp
    exact .inl (Option.filter_eq_some_iff.1 hp).1

/-- The numbers of entries have been drawn. -/
theorem IsNew.entry_lt (h : e.IsNew) (hpending : e.pending = .empty) (as : List Act) :
    ∀ k p, (e.after as).pending.get? k = some p → p.number < (e.after as).next := by
  induction as using List.reverseRecOn with
  | nil =>
    intro k p hp
    rw [after_nil, hpending] at hp
    cases hp
  | append_singleton as a ih =>
    intro k p hp
    rw [after_concat] at hp ⊢
    obtain hold | ⟨hnumber, hlt, -⟩ := entry_cases hp
    · exact Nat.lt_of_lt_of_le (ih k p hold) (((h.sound .any).after_any as).next_le a)
    · exact hnumber ▸ hlt

/-- An instance that has no pending delay has none until a chain of it is laid to rest. -/
theorem get?_eq_none_after (h : e.pending.get? k = none) {as : List Act}
    (has : ∀ c next, (c, .suspended next) ∈ e.chronicle as → (c.dispatcher, c.inst) ≠ k) :
    (e.after as).pending.get? k = none := by
  induction as generalizing e with
  | nil => exact h
  | cons a as ih =>
    refine ih ?_ fun c next hd => has c next (List.mem_append_right _ hd)
    rw [Option.eq_none_iff_forall_ne_some]
    intro p hp
    obtain hold | ⟨-, -, c, next, hd, hk⟩ := entry_cases hp
    · cases h.symm.trans hold
    · exact has c next (List.mem_append_left _ hd) hk

/-- How the entry of a delay is taken away by an act. -/
inductive Removes (e : Engine) (k : DispatcherId × String) (p : PendingDelay) : Act → Prop
  | revoke : Removes e k p (.cancelDelay k.1 k.2)
  /-- The continuation that it was made for goes off. -/
  | fire {a x} (hx : x ∈ e.scheduler.timers.armed) (hk : x.key = k) (hnumber : x.work.delay = p.number)
      (hgone : x ∉ (e.act a).scheduler.timers.armed) : Removes e k p a
  /-- A chain of the instance is laid to rest, or is to be; or one of the same dispatcher, and the
  token of the entry is cancelled. -/
  | supersede {a c d} (hd : (c, d) ∈ e.deeds a) (hdelay : d.isDelay = true)
      (hdispatcher : c.dispatcher = k.1) (h : c.inst = k.2 ∨ e.isCancelled p.token = true) :
      Removes e k p a

/-- A continuation that goes off takes away the entry of its own number only. -/
theorem wake_cases (hnodup : (e.scheduler.timers.armed.map fun x => x.work.delay).Nodup)
    {place : Nat} {x : Timer Continuation} (hx : e.scheduler.timers.armed[place]? = some x)
    (hp : e.pending.get? k = some p) : (e.act (.wake place)).pending.get? k = some p ∨
      x.key = k ∧ x.work.delay = p.number ∧
        x ∉ (e.act (.wake place)).scheduler.timers.armed := by
  rw [get?_wake hx, hp, armed_wake hx]
  by_cases hkept : k = x.key ∧ p.number = x.work.delay
  · refine .inr ⟨hkept.1.symm, hkept.2.symm, fun hin => ?_⟩
    exact delay_ne_of_nodup hnodup hx x hin rfl
  · refine .inl ?_
    simp [Option.filter]
    grind

/-- In the course of a move no continuation of the instance has been armed, and the entry is there,
unless the continuation that it was made for has gone off. -/
structure Stays (e : Engine) (k : DispatcherId × String) (p : PendingDelay) (m : Engine) : Prop where
  armed : ∀ x ∈ m.scheduler.timers.armed, x.key = k → x ∈ e.scheduler.timers.armed
  entry : m.pending.get? k = some p ∨ ∃ x ∈ e.scheduler.timers.armed,
    x.key = k ∧ x.work.delay = p.number ∧ x ∉ m.scheduler.timers.armed

/-- The chain of another instance is laid to rest. -/
theorem stays_lay (hp : e.pending.get? k = some p) (τ : Token) (next : Nat) (due : Instant)
    (hk : k ≠ (c.dispatcher, c.inst))
    (hlive : ¬ (k.1 = c.dispatcher ∧ e.isCancelled p.token = true)) :
    e.Stays k p (e.lay c τ next due).1 where
  armed x hx hkey := (mem_armed_lay τ next due hk hkey).1 hx
  entry := by
    refine .inl ?_
    rw [(e.lay_cases c τ next due).2.1 k hk, hp]
    simpa [Option.filter] using hlive

theorem Stays.wake {m : Engine} (h : e.Stays k p m)
    (hnodup : (m.scheduler.timers.armed.map fun x => x.work.delay).Nodup) {place : Nat}
    {x : Timer Continuation} (hx : m.scheduler.timers.armed[place]? = some x) :
    e.Stays k p (m.act (.wake place)) := by
  have hless : ∀ y ∈ (m.act (.wake place)).scheduler.timers.armed,
      y ∈ m.scheduler.timers.armed := by
    intro y hy
    rw [armed_wake hx] at hy
    exact (armed_perm hx).mem_iff.2 (List.mem_cons_of_mem _ hy)
  refine ⟨fun y hy => h.armed y (hless y hy), ?_⟩
  obtain hp | ⟨y, hy, hkey, hnumber, hgone⟩ := h.entry
  · exact (wake_cases hnodup hx hp).imp_right fun ⟨hkey, hnumber, hgone⟩ =>
      ⟨x, h.armed x (List.mem_of_getElem? hx) hkey, hkey, hnumber, hgone⟩
  · exact .inr ⟨y, hy, hkey, hnumber, fun hin => hgone (hless y hin)⟩

/-- **An entry stays, or is taken away in one of those ways.** -/
theorem kept_or_removes (hnumbered : e.IsNumbered) (hp : e.pending.get? k = some p) (a : Act) :
    (e.act a).pending.get? k = some p ∨ e.Removes k p a := by
  cases e.touches a with
  | nothing hkeeps => exact .inl (hkeeps.pending.symm ▸ hp)
  | @rests n t o c next due below ht hparked hframes hkeeps hnext =>
    obtain ⟨d, hd, hdelay⟩ : ∃ d, (c, d) ∈ e.deeds (.advance n) ∧ d.isDelay = true := by
      obtain ⟨-, hdeeds⟩ | ⟨-, hdeeds⟩ := deeds_of_rests ht hparked hframes
      · exact ⟨_, hdeeds ▸ List.mem_singleton_self _, rfl⟩
      · exact ⟨_, hdeeds ▸ List.mem_singleton_self _, rfl⟩
    by_cases hk : k = (c.dispatcher, c.inst)
    · exact .inr (.supersede hd hdelay (by rw [hk]) (.inl (by rw [hk])))
    by_cases hpruned : k.1 = c.dispatcher ∧ e.isCancelled p.token = true
    · exact .inr (.supersede hd hdelay hpruned.1.symm (.inr hpruned.2))
    -- The entry is there when the chain rests; what goes off then may take it away.
    have hstays := suspend_of_lay (P := e.Stays k p) hnumbered t.token next due
      (stays_lay hp t.token next due hk hpruned) fun hm hnodup hx => hm.wake hnodup hx
    obtain hkept | ⟨x, hx, hkey, hnumber, hgone⟩ := hstays.entry
    · exact .inl (hkeeps.pending ▸ hkept)
    · exact .inr (.fire hx hkey hnumber (hkeeps.armed ▸ hgone))
  | wakes hx =>
    obtain hkept | ⟨hk, hnumber, hgone⟩ := wake_cases hnumbered.nodup hx hp
    · exact .inl hkept
    · exact .inr (.fire (List.mem_of_getElem? hx) hk hnumber hgone)
  | drops hx => exact .inl hp
  | revokes d inst =>
    by_cases hk : k = (d, inst)
    · subst hk
      exact .inr .revoke
    · refine .inl ?_
      rw [get?_cancelDelay]
      simp [hp, Option.filter, hk]

/-- The entry of a delay stays, whatever becomes of older continuations. -/
structure Outlasts (e : Engine) (k : DispatcherId × String) (p : PendingDelay) : Prop where
  /-- Whatever is laid to rest from now on has a greater number. -/
  lt_next : p.number < e.next
  act : ∀ a, (e.act a).pending.get? k = some p ∨ e.Removes k p a
  /-- Another continuation goes off. -/
  fired : ∀ place y, e.scheduler.timers.armed[place]? = some y → y.work.delay ≠ p.number →
    (e.act (.wake place)).pending.get? k = some p
  /-- A continuation is dropped, or a token is cancelled. -/
  dropped : ∀ place, (e.act (.drop place)).pending.get? k = some p
  cancelled : ∀ τ, (e.act (.cancel τ)).pending.get? k = some p
  /-- Another continuation was not armed, or is about to go off. -/
  untracked : ∀ n, n ≠ p.number → (e.untrack k.1 k.2 n).pending.get? k = some p

/-- **An older continuation never takes away the entry of a later delay.** -/
theorem IsNew.outlasts (h : e.IsNew) (hpending : e.pending = .empty) (as : List Act)
    (hp : (e.after as).pending.get? k = some p) : (e.after as).Outlasts k p where
  lt_next := h.entry_lt hpending as k p hp
  act := kept_or_removes (h.isNumbered as) hp
  fired place y hy hne :=
    (wake_cases (h.isNumbered as).nodup hy hp).resolve_right fun hfired => hne hfired.2.1
  dropped _ := hp
  cancelled _ := hp
  untracked n hne := by
    rw [get?_untrack]
    simp [hp, Option.filter, Ne.symm hne]

end Engine

end DurableFlow
