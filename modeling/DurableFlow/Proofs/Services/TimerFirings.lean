import DurableFlow.Alarms
import Mathlib.Data.List.Basic
import Mathlib.Data.List.Induction

/-!
# Firings of timers

A callback that is scheduled runs once, when the clock reaches its deadline, unless its handle or a
token above it has been cancelled by then. Callbacks are scheduled, tokens and handles are cancelled
and the clock moves in any order, and each of these calls takes effect before the next one.

Between two calls the timers that are armed are those whose deadlines are still to come and whose
tokens are not cancelled (`Alarms.IsSound`).

Main statement: `Alarms.fires_once`.
-/

namespace DurableFlow

namespace Alarms

/-- What may be done to alarms. -/
inductive Call
  | schedule (name : String) (due : Instant) (token : Token)
  | cancel (token : Token)
  /-- The handle is cancelled of the callback that was last accepted under a name. -/
  | cancelHandle (name : String)
  | advance (millis : Nat)
  /-- A number is drawn for a new token. -/
  | mint

/-- How long a call takes by the clock. -/
def Call.millis : Call → Nat
  | .advance millis => millis
  | _ => 0

/-- The token that a call is given. -/
def Call.token? : Call → Option Token
  | .schedule _ _ token | .cancel token => some token
  | _ => none

/-- The alarms as a call leaves them, before the clock moves on. -/
def begin (a : Alarms) : Call → Alarms
  | .schedule name due token => (a.schedule name due token true).toOption.getD a
  | .cancel token => a.cancel token
  | .cancelHandle name => (a.cancelHandle name).getD a
  | .advance _ => a
  | .mint => { a with nextToken := a.nextToken + 1 }

/-- The alarms after a call and what has become due. -/
def take (a : Alarms) (c : Call) : Alarms := (a.begin c).advance c.millis

/-- The alarms after a list of calls. -/
def after (a : Alarms) (cs : List Call) : Alarms := cs.foldl take a

/-- The token that a call cancels. -/
def cancels? (a : Alarms) : Call → Option Token
  | .cancel token => some token
  | .cancelHandle name => a.handles.get? name
  | _ => none

/-- A token that has been made up: its numbers have been drawn. -/
def IsMade (a : Alarms) (t : Token) : Prop := ∀ n ∈ t.path, n < a.nextToken

/-- The tokens that calls are given have been made up before. -/
def Admits : Alarms → List Call → Prop
  | _, [] => True
  | a, c :: cs => (∀ t ∈ c.token?, a.IsMade t) ∧ (a.take c).Admits cs

instance (a : Alarms) (t : Token) : Decidable (a.IsMade t) :=
  inferInstanceAs (Decidable (∀ n ∈ t.path, n < a.nextToken))

instance decidableAdmits : ∀ (a : Alarms) (cs : List Call), Decidable (a.Admits cs)
  | _, [] => inferInstanceAs (Decidable True)
  | a, c :: cs =>
    have := decidableAdmits (a.take c) cs
    inferInstanceAs (Decidable ((∀ t ∈ c.token?, a.IsMade t) ∧ (a.take c).Admits cs))

/-- Alarms of which nothing has been made yet, by a clock that starts at an instant. -/
def new (start : Instant) : Alarms := { timers := { start } }

/-- What is recorded of a timer that goes off at its deadline. -/
def firing (cancelled : List Token) (x : Timer String) : Firing :=
  ⟨x.work, x.token, x.deadline, x.token.isCancelled cancelled⟩

/-- The alarms once the clock has reached a tick. -/
def reach (a : Alarms) (limit : Nat) : Alarms :=
  { a with
    timers := { a.timers with
      clock := limit
      armed := a.timers.armed.filter fun x => decide (limit < x.deadline) }
    fired := a.fired ++
      (a.timers.armed.filter fun x => decide (x.deadline ≤ limit)).map (firing a.cancelled) }

end Alarms

/-! ## Timers in order -/

namespace Timers

variable {α : Type} {t : Timers α} {x : Timer α} {xs : List (Timer α)}

/-- The timers are armed in the order of their deadlines, and none of these has passed. -/
structure IsOrdered (t : Timers α) : Prop where
  sorted : t.armed.Pairwise fun x y => x.deadline ≤ y.deadline
  ahead : ∀ x ∈ t.armed, t.clock ≤ x.deadline

theorem pairwise_place (h : xs.Pairwise fun x y => x.deadline ≤ y.deadline) :
    (place x xs).Pairwise fun x y => x.deadline ≤ y.deadline := by
  induction xs with
  | nil => simp [place]
  | cons y ys ih =>
    rw [List.pairwise_cons] at h
    rw [place]
    split
    · rename_i hle
      refine List.pairwise_cons.2 ⟨fun z hz => ?_, ih h.2⟩
      obtain rfl | hz := mem_place.1 hz
      · exact hle
      · exact h.1 z hz
    · rename_i hle
      refine List.pairwise_cons.2 ⟨fun z hz => ?_, List.pairwise_cons.2 h⟩
      obtain rfl | hz := List.mem_cons.1 hz
      · omega
      · have := h.1 z hz
        omega

theorem IsOrdered.arm (h : t.IsOrdered) (due : Instant) (token : Token) (work : α) :
    (t.arm due token work).IsOrdered := by
  refine ⟨pairwise_place h.sorted, fun x hx => ?_⟩
  obtain rfl | hx := mem_place.1 hx
  · exact clock_le_deadline t due
  · exact h.ahead x hx

theorem IsOrdered.prune (h : t.IsOrdered) (cancelled : List Token) :
    (t.prune cancelled).IsOrdered :=
  ⟨h.sorted.filter _, fun x hx => h.ahead x (List.mem_of_mem_filter hx)⟩

/-- A deadline is the first tick that is not before the instant, or the present one. -/
theorem deadline_le (t : Timers α) (due : Instant) {n : Nat} (hn : t.clock ≤ n)
    (hdue : due.nanos ≤ t.start.nanos + n * 1000000) : t.deadline due ≤ n := by
  simp only [deadline, Instant.waitFrom, now]
  omega

end Timers

namespace Alarms

variable {a : Alarms} {limit fuel : Nat}

/-! ## The clock moves -/

theorem fireUntil_eq (h : a.timers.IsOrdered) (hclock : a.timers.clock ≤ limit)
    (hfuel : a.timers.armed.length ≤ fuel) :
    { fireUntil limit fuel a with
      timers := (fireUntil limit fuel a).timers.moveTo limit } = a.reach limit := by
  induction fuel generalizing a with
  | zero =>
    have hnil : a.timers.armed = [] := List.length_eq_zero_iff.1 (Nat.le_zero.1 hfuel)
    simp [fireUntil, reach, hnil, Timers.moveTo, Nat.max_eq_right hclock]
  | succ fuel ih =>
    cases harmed : a.timers.armed with
    | nil => simp [fireUntil, Timers.pop?, reach, harmed, Timers.moveTo, Nat.max_eq_right hclock]
    | cons x rest =>
      have hsorted := h.sorted
      rw [harmed, List.pairwise_cons] at hsorted
      by_cases hx : x.deadline ≤ limit
      · have hpop : a.timers.pop? limit =
            some (x, { a.timers with clock := x.deadline, armed := rest }) := by
          have hahead := h.ahead x (harmed ▸ List.mem_cons_self)
          simp [Timers.pop?, harmed, hx, Nat.max_eq_right hahead]
        have hstep := ih (a := { a with
          timers := { a.timers with clock := x.deadline, armed := rest }
          fired := a.fired ++ [firing a.cancelled x] }) ⟨hsorted.2, hsorted.1⟩ hx
          (by simpa [harmed] using hfuel)
        rw [fireUntil, hpop]
        refine hstep.trans ?_
        simp [reach, harmed, hx, Nat.not_lt.2 hx]
      · have hpop : a.timers.pop? limit = none := by simp [Timers.pop?, harmed, hx]
        have hnone : ∀ y ∈ a.timers.armed, limit < y.deadline := by
          intro y hy
          rw [harmed] at hy
          obtain rfl | hy := List.mem_cons.1 hy
          · omega
          · have := hsorted.1 y hy
            omega
        have hall : a.timers.armed.filter (fun y => decide (limit < y.deadline)) = a.timers.armed :=
          List.filter_eq_self.2 fun y hy => decide_eq_true (hnone y hy)
        have hno : a.timers.armed.filter (fun y => decide (y.deadline ≤ limit)) = [] :=
          List.filter_eq_nil_iff.2 fun y hy => by simpa using hnone y hy
        rw [fireUntil, hpop]
        simp [reach, hall, hno, Timers.moveTo, Nat.max_eq_right hclock]

/-- **The clock moves on**, and the timers go off whose deadlines it reaches. -/
theorem advance_eq (h : a.timers.IsOrdered) (millis : Nat) :
    a.advance millis = a.reach (a.timers.clock + millis) :=
  fireUntil_eq h (Nat.le_add_right _ _) (Nat.le_refl _)

/-! ## Between two calls -/

/-- What holds when a call has begun. -/
structure IsOrderly (a : Alarms) : Prop where
  ordered : a.timers.IsOrdered
  live : ∀ x ∈ a.timers.armed, x.token.isCancelled a.cancelled = false
  armed : ∀ x ∈ a.timers.armed, a.IsMade x.token
  fired : ∀ f ∈ a.fired, a.IsMade f.token
  cancelled : ∀ t ∈ a.cancelled, a.IsMade t
  handles : ∀ name t, a.handles.get? name = some t → a.IsMade t
  once : (a.timers.armed.map Timer.token ++ a.fired.map Firing.token).Nodup

/-- What holds between two calls: nothing that is armed is due. -/
structure IsSound (a : Alarms) : Prop extends IsOrderly a where
  ahead : ∀ x ∈ a.timers.armed, a.timers.clock < x.deadline

theorem isSound_new (start : Instant) : (new start).IsSound := by
  constructor
  · constructor <;> simp [new, Table.get?_empty]
    constructor <;> simp
  · simp [new]

theorem IsOrderly.reach (h : a.IsOrderly) (limit : Nat) : (a.reach limit).IsSound := by
  have hmem : ∀ x ∈ (a.reach limit).timers.armed, x ∈ a.timers.armed ∧ limit < x.deadline :=
    fun x hx => ⟨List.mem_of_mem_filter hx, of_decide_eq_true (List.mem_filter.1 hx).2⟩
  refine ⟨⟨⟨h.ordered.sorted.filter _, fun x hx => Nat.le_of_lt (hmem x hx).2⟩,
    fun x hx => h.live x (hmem x hx).1, fun x hx => h.armed x (hmem x hx).1, fun f hf => ?_,
    h.cancelled, h.handles, ?_⟩, fun x hx => (hmem x hx).2⟩
  · obtain hf | hf := List.mem_append.1 hf
    · exact h.fired f hf
    · obtain ⟨x, hx, rfl⟩ := List.mem_map.1 hf
      exact h.armed x (List.mem_of_mem_filter hx)
  · -- The timers that go off only change their places.
    have hsplit : a.timers.armed.filter (fun x => decide (x.deadline ≤ limit)) =
        a.timers.armed.filter fun x => !decide (limit < x.deadline) := by
      refine List.filter_congr fun x _ => ?_
      by_cases hx : limit < x.deadline <;> simp [hx, Nat.not_le.2, Nat.le_of_not_lt]
    have hperm : ((a.reach limit).timers.armed.map Timer.token ++
        (a.reach limit).fired.map Firing.token).Perm
          (a.timers.armed.map Timer.token ++ a.fired.map Firing.token) := by
      have hfiring : Firing.token ∘ firing a.cancelled = Timer.token := rfl
      have hfilter := (List.filter_append_perm (fun x => decide (limit < x.deadline))
        a.timers.armed).map Timer.token
      simp only [Alarms.reach, hsplit, List.map_append, List.map_map, hfiring]
      rw [List.map_append] at hfilter
      refine (List.perm_append_comm.append_left _).trans ?_
      rw [← List.append_assoc]
      exact hfilter.append_right _
    exact hperm.nodup_iff.2 h.once

/-! ## One call -/

section

variable {c : Call} {name : String} {due : Instant} {token t : Token}

theorem IsMade.mono {b : Alarms} (h : a.IsMade t) (hle : a.nextToken ≤ b.nextToken) : b.IsMade t :=
  fun n hn => Nat.lt_of_lt_of_le (h n hn) hle

theorem schedule_of_isCancelled (h : token.isCancelled a.cancelled = true) :
    a.schedule name due token true = .error .cancelled := by
  simp [schedule, h]

/-- The alarms with a callback accepted. -/
def accept (a : Alarms) (name : String) (due : Instant) (token : Token) : Alarms :=
  { a with
    timers := a.timers.arm due (token.child a.nextToken) name
    handles := a.handles.put name (token.child a.nextToken)
    nextToken := a.nextToken + 1 }

theorem schedule_of_not_isCancelled (h : token.isCancelled a.cancelled = false) :
    a.schedule name due token true = .ok (a.accept name due token) := by
  simp [schedule, h, accept]

/-- What comes next is not the number of a token that has been made up. -/
theorem IsMade.ne_child (h : a.IsMade t) : t ≠ token.child a.nextToken := by
  rintro rfl
  exact Nat.lt_irrefl _ (h a.nextToken List.mem_cons_self)

/-- No token that has been made up is within one that comes next. -/
theorem IsMade.not_isWithin_child (h : a.IsMade t) :
    t.isWithin (token.child a.nextToken) = false := by
  refine Bool.eq_false_iff.2 fun hwithin => ?_
  have hsuffix := List.isSuffixOf_iff_suffix.1 hwithin
  exact Nat.lt_irrefl _ (h a.nextToken (hsuffix.subset List.mem_cons_self))

theorem IsMade.child (h : a.IsMade token) : (a.accept name due token).IsMade
    (token.child a.nextToken) := by
  intro n hn
  obtain rfl | hn := List.mem_cons.1 hn
  · exact Nat.lt_succ_self _
  · exact Nat.lt_succ_of_lt (h n hn)

/-- A new handle is not cancelled. -/
theorem IsOrderly.child_not_isCancelled (h : a.IsOrderly)
    (hlive : token.isCancelled a.cancelled = false) :
    (token.child a.nextToken).isCancelled a.cancelled = false := by
  refine Bool.eq_false_iff.2 fun hcancelled => ?_
  obtain ⟨t, ht, hwithin⟩ := List.any_eq_true.1 hcancelled
  obtain heq | hwithin := Token.isWithin_child_iff.1 hwithin
  · exact (h.cancelled t ht).ne_child heq.symm
  · exact Bool.eq_false_iff.1 hlive (List.any_eq_true.2 ⟨t, ht, hwithin⟩)

theorem IsOrderly.accept (h : a.IsOrderly) (htoken : a.IsMade token)
    (hlive : token.isCancelled a.cancelled = false) : (a.accept name due token).IsOrderly := by
  have hmono : ∀ {t}, a.IsMade t → (a.accept name due token).IsMade t :=
    fun ht => ht.mono (Nat.le_succ _)
  have hchild : (a.accept name due token).IsMade (token.child a.nextToken) := htoken.child
  have hfresh : token.child a.nextToken ∉
      a.timers.armed.map Timer.token ++ a.fired.map Firing.token := by
    intro hmem
    obtain hmem | hmem := List.mem_append.1 hmem
    · obtain ⟨x, hx, heq⟩ := List.mem_map.1 hmem
      exact (h.armed x hx).ne_child heq
    · obtain ⟨f, hf, heq⟩ := List.mem_map.1 hmem
      exact (h.fired f hf).ne_child heq
  refine ⟨h.ordered.arm _ _ _, fun x hx => ?_, fun x hx => ?_, fun f hf => hmono (h.fired f hf),
    fun t ht => hmono (h.cancelled t ht), fun n t hget => ?_, ?_⟩
  · obtain rfl | hx := Timers.mem_place.1 hx
    · exact h.child_not_isCancelled hlive
    · exact h.live x hx
  · obtain rfl | hx := Timers.mem_place.1 hx
    · exact hchild
    · exact hmono (h.armed x hx)
  · rw [Alarms.accept, Table.get?_put] at hget
    split at hget
    · cases hget
      exact hchild
    · exact hmono (h.handles n t hget)
  · have hperm := ((Timers.place_perm ⟨a.timers.deadline due, token.child a.nextToken, name⟩
      a.timers.armed).map Timer.token).append_right (a.fired.map Firing.token)
    exact hperm.nodup_iff.2 (List.nodup_cons.2 ⟨hfresh, h.once⟩)

theorem IsOrderly.cancel (h : a.IsOrderly) (ht : a.IsMade t) : (a.cancel t).IsOrderly := by
  refine ⟨h.ordered.prune _, fun x hx => ?_, fun x hx => h.armed x (List.mem_of_mem_filter hx),
    h.fired, ?_, h.handles, ?_⟩
  · exact (Bool.not_eq_true' _).mp (List.mem_filter.1 hx).2
  · rintro u hu
    obtain rfl | hu := List.mem_cons.1 hu
    · exact ht
    · exact h.cancelled u hu
  · exact h.once.sublist ((List.filter_sublist.map _).append_right _)

/-- What comes of a call before the clock moves on: it is rejected or has nothing to do, a callback is
accepted, a token is cancelled, or a number is drawn. -/
inductive Begins (a : Alarms) : Call → Option Token → Alarms → Prop
  | nothing (c : Call) : Begins a c none a
  | accepts (name : String) (due : Instant) (token : Token)
      (hlive : token.isCancelled a.cancelled = false) :
      Begins a (.schedule name due token) none (a.accept name due token)
  | cancels (c : Call) (t : Token) (ht : t ∈ c.token? ∨ ∃ name, a.handles.get? name = some t) :
      Begins a c (some t) (a.cancel t)
  | mints : Begins a .mint none { a with nextToken := a.nextToken + 1 }

theorem begins (a : Alarms) (c : Call) : a.Begins c (a.cancels? c) (a.begin c) := by
  cases c with
  | schedule name due token =>
    cases hlive : token.isCancelled a.cancelled with
    | true =>
      rw [Alarms.begin, schedule_of_isCancelled hlive]
      exact .nothing _
    | false =>
      rw [Alarms.begin, schedule_of_not_isCancelled hlive]
      exact .accepts name due token hlive
  | cancel t => exact .cancels _ t (.inl rfl)
  | cancelHandle name =>
    rw [Alarms.begin, cancelHandle, cancels?]
    cases hget : a.handles.get? name with
    | none => exact .nothing _
    | some t => exact .cancels _ t (.inr ⟨name, hget⟩)
  | advance millis => exact .nothing _
  | mint => exact .mints

/-- **A call that begins** leaves the alarms in order. -/
theorem IsSound.begin (h : a.IsSound) (hmade : ∀ t ∈ c.token?, a.IsMade t) :
    (a.begin c).IsOrderly := by
  have hbegins := a.begins c
  generalize a.begin c = b, a.cancels? c = t? at hbegins ⊢
  cases hbegins with
  | nothing => exact h.toIsOrderly
  | accepts _ _ token hlive => exact h.toIsOrderly.accept (hmade token rfl) hlive
  | cancels _ t ht =>
    obtain ht | ⟨name, hget⟩ := ht
    · exact h.toIsOrderly.cancel (hmade t ht)
    · exact h.toIsOrderly.cancel (h.handles name t hget)
  | mints =>
    have hmono : ∀ {t}, a.IsMade t → { a with nextToken := a.nextToken + 1 }.IsMade t :=
      fun ht => ht.mono (Nat.le_succ _)
    exact ⟨h.ordered, h.live, fun x hx => hmono (h.armed x hx), fun f hf => hmono (h.fired f hf),
      fun t ht => hmono (h.cancelled t ht), fun n t hget => hmono (h.handles n t hget), h.once⟩

/-- A call takes effect, and what becomes due goes off. -/
theorem IsSound.take_eq (h : a.IsSound) (hmade : ∀ t ∈ c.token?, a.IsMade t) :
    a.take c = (a.begin c).reach ((a.begin c).timers.clock + c.millis) :=
  advance_eq (h.begin hmade).ordered _

theorem IsSound.take (h : a.IsSound) (hmade : ∀ t ∈ c.token?, a.IsMade t) :
    (a.take c).IsSound := by
  rw [h.take_eq hmade]
  exact (h.begin hmade).reach _

theorem Admits.append_left {before later : List Call} (h : a.Admits (before ++ later)) :
    a.Admits before := by
  induction before generalizing a with
  | nil => trivial
  | cons c cs ih => exact ⟨h.1, ih h.2⟩

theorem Admits.append_right {before later : List Call} (h : a.Admits (before ++ later)) :
    (a.after before).Admits later := by
  induction before generalizing a with
  | nil => exact h
  | cons c cs ih => exact ih h.2

/-- **Between two calls** nothing that is armed is due or cancelled. -/
theorem IsSound.after {cs : List Call} (h : a.IsSound) (hcs : a.Admits cs) :
    (a.after cs).IsSound := by
  induction cs generalizing a with
  | nil => exact h
  | cons c cs ih => exact ih (h.take hcs.1) hcs.2

theorem after_concat (a : Alarms) (cs : List Call) (c : Call) :
    a.after (cs ++ [c]) = (a.after cs).take c := by
  simp [Alarms.after]

/-! ## What a call changes -/

theorem clock_begin (a : Alarms) (c : Call) : (a.begin c).timers.clock = a.timers.clock := by
  have hbegins := a.begins c
  generalize a.begin c = b, a.cancels? c = t? at hbegins ⊢
  cases hbegins <;> rfl

theorem fired_begin (a : Alarms) (c : Call) : (a.begin c).fired = a.fired := by
  have hbegins := a.begins c
  generalize a.begin c = b, a.cancels? c = t? at hbegins ⊢
  cases hbegins <;> rfl

theorem nextToken_begin_le (a : Alarms) (c : Call) : a.nextToken ≤ (a.begin c).nextToken := by
  have hbegins := a.begins c
  generalize a.begin c = b, a.cancels? c = t? at hbegins ⊢
  cases hbegins with
  | accepts | mints => exact Nat.le_succ _
  | nothing | cancels => exact Nat.le_refl _

/-- The tokens that are cancelled are those that calls have cancelled. -/
theorem cancelled_begin (a : Alarms) (c : Call) :
    (a.begin c).cancelled = (a.cancels? c).toList ++ a.cancelled := by
  have hbegins := a.begins c
  generalize a.begin c = b, a.cancels? c = t? at hbegins ⊢
  cases hbegins <;> rfl

/-- A timer stays armed when a call begins, unless its token is cancelled. -/
theorem mem_armed_begin {x : Timer String} (hx : x ∈ a.timers.armed) :
    x ∈ (a.begin c).timers.armed ∨ x.token.isCancelled (a.begin c).cancelled = true := by
  have hbegins := a.begins c
  generalize a.begin c = b, a.cancels? c = t? at hbegins ⊢
  cases hbegins with
  | accepts => exact .inl (Timers.mem_place.2 (.inr hx))
  | cancels _ t _ =>
    -- What a cancellation takes away is cancelled by it.
    cases hcancelled : x.token.isCancelled (t :: a.cancelled) with
    | true => exact .inr hcancelled
    | false => exact .inl (List.mem_filter.2 ⟨hx, by simp [hcancelled]⟩)
  | nothing | mints => exact .inl hx

theorem clock_take (h : a.IsSound) (hmade : ∀ t ∈ c.token?, a.IsMade t) :
    (a.take c).timers.clock = a.timers.clock + c.millis := by
  rw [h.take_eq hmade, clock_begin]
  rfl

theorem cancelled_take (h : a.IsSound) (hmade : ∀ t ∈ c.token?, a.IsMade t) :
    (a.take c).cancelled = (a.cancels? c).toList ++ a.cancelled := by
  rw [h.take_eq hmade, ← cancelled_begin]
  rfl

theorem nextToken_take_le (h : a.IsSound) (hmade : ∀ t ∈ c.token?, a.IsMade t) :
    a.nextToken ≤ (a.take c).nextToken := by
  rw [h.take_eq hmade]
  exact nextToken_begin_le a c

/-- What has run was run before, or it is that of a timer that the call makes due. -/
theorem mem_fired_take (h : a.IsSound) (hmade : ∀ t ∈ c.token?, a.IsMade t) {f : Firing} :
    f ∈ (a.take c).fired ↔ f ∈ a.fired ∨ ∃ x ∈ (a.begin c).timers.armed,
      x.deadline ≤ (a.take c).timers.clock ∧ firing (a.begin c).cancelled x = f := by
  rw [clock_take h hmade, h.take_eq hmade, Alarms.reach, List.mem_append, fired_begin, clock_begin]
  simp only [List.mem_map, List.mem_filter, decide_eq_true_eq, and_assoc]

theorem mem_armed_take (h : a.IsSound) (hmade : ∀ t ∈ c.token?, a.IsMade t) {x : Timer String} :
    x ∈ (a.take c).timers.armed ↔
      x ∈ (a.begin c).timers.armed ∧ (a.take c).timers.clock < x.deadline := by
  rw [clock_take h hmade, h.take_eq hmade, Alarms.reach, clock_begin]
  simp only [List.mem_filter, decide_eq_true_eq]

end

/-! ## What becomes of a timer -/

section

variable {c : Call} {cs later : List Call} {x : Timer String} {token t u : Token}
  {deadline : Nat}

/-- A token is cancelled by one of the calls. -/
def Cancels (a : Alarms) (cs : List Call) (t : Token) : Prop :=
  ∃ p c q, cs = p ++ c :: q ∧ (a.after p).cancels? c = some t

/-- The clock reaches a deadline, and a token has not been cancelled by then. -/
def Reaches (a : Alarms) (deadline : Nat) (token : Token) (cs : List Call) : Prop :=
  ∃ p q, cs = p ++ q ∧ deadline ≤ (a.after p).timers.clock ∧
    token.isCancelled (a.after p).cancelled = false

theorem cancels_concat :
    a.Cancels (cs ++ [c]) t ↔ a.Cancels cs t ∨ (a.after cs).cancels? c = some t := by
  constructor
  · rintro ⟨p, d, q, heq, hd⟩
    obtain rfl | ⟨q, e, rfl⟩ := q.eq_nil_or_concat'
    · obtain ⟨rfl, hcd⟩ := List.append_inj' heq rfl
      cases hcd
      exact .inr hd
    · rw [← List.cons_append, ← List.append_assoc] at heq
      obtain ⟨hcs, -⟩ := List.append_inj' heq rfl
      exact .inl ⟨p, d, q, hcs, hd⟩
  · rintro (⟨p, d, q, rfl, hd⟩ | hc)
    · exact ⟨p, d, q ++ [c], by simp, hd⟩
    · exact ⟨cs, c, [], rfl, hc⟩

theorem reaches_concat :
    a.Reaches deadline token (cs ++ [c]) ↔ a.Reaches deadline token cs ∨
      deadline ≤ (a.after (cs ++ [c])).timers.clock ∧
        token.isCancelled (a.after (cs ++ [c])).cancelled = false := by
  constructor
  · rintro ⟨p, q, heq, hp⟩
    obtain rfl | ⟨q, e, rfl⟩ := q.eq_nil_or_concat'
    · rw [List.append_nil] at heq
      exact .inr (heq ▸ hp)
    · rw [← List.append_assoc] at heq
      exact .inl ⟨p, q, (List.append_inj' heq rfl).1, hp⟩
  · rintro (⟨p, q, rfl, hp⟩ | hend)
    · exact ⟨p, q ++ [c], by simp, hp⟩
    · exact ⟨cs ++ [c], [], by simp, hend⟩

theorem Admits.of_concat (h : a.Admits (cs ++ [c])) :
    a.Admits cs ∧ ∀ t ∈ c.token?, (a.after cs).IsMade t :=
  ⟨h.append_left, h.append_right.1⟩

theorem isCancelled_append {xs ys : List Token} :
    t.isCancelled (xs ++ ys) = (t.isCancelled xs || t.isCancelled ys) := List.any_append

/-- **The cancelled tokens** are those within one that was cancelled from the start or by a call. -/
theorem isCancelled_after (h : a.IsSound) (hcs : a.Admits cs) :
    t.isCancelled (a.after cs).cancelled = true ↔
      t.isCancelled a.cancelled = true ∨ ∃ u, a.Cancels cs u ∧ t.isWithin u = true := by
  induction cs using List.reverseRecOn with
  | nil => simp [Alarms.after, Cancels]
  | append_singleton cs c ih =>
    obtain ⟨hcs, hmade⟩ := hcs.of_concat
    have hlast : t.isCancelled ((a.after cs).cancels? c).toList = true ↔
        ∃ u, (a.after cs).cancels? c = some u ∧ t.isWithin u = true := by
      cases (a.after cs).cancels? c <;> simp [Token.isCancelled]
    rw [after_concat, cancelled_take (h.after hcs) hmade, isCancelled_append, Bool.or_eq_true,
      ih hcs, hlast]
    simp only [cancels_concat, or_and_right, exists_or]
    exact or_left_comm.trans (or_congr_right or_comm)

/-- What has become of a timer once some calls have been taken. -/
inductive Fate (a : Alarms) (x : Timer String) (cs : List Call) : Prop
  | waits (armed : x ∈ (a.after cs).timers.armed)
      (unreached : ¬ a.Reaches x.deadline x.token cs)
  | fired (fired : ⟨x.work, x.token, x.deadline, false⟩ ∈ (a.after cs).fired)
      (reached : a.Reaches x.deadline x.token cs)
  | dropped (silent : ∀ f ∈ (a.after cs).fired, f.token ≠ x.token)
      (cancelled : x.token.isCancelled (a.after cs).cancelled = true)
      (unreached : ¬ a.Reaches x.deadline x.token cs)

/-- What is armed has not been run. -/
theorem IsOrderly.token_ne (h : a.IsOrderly) (hx : x ∈ a.timers.armed) :
    ∀ f ∈ a.fired, f.token ≠ x.token :=
  fun _ hf heq => (List.nodup_append.1 h.once).2.2 _ (List.mem_map_of_mem hx) _
    (List.mem_map_of_mem hf) heq.symm

/-- No timer goes off whose token is cancelled. -/
theorem IsSound.silent_take (h : a.IsSound) (hmade : ∀ t ∈ c.token?, a.IsMade t)
    (hsilent : ∀ f ∈ a.fired, f.token ≠ t) (hcancelled : t.isCancelled (a.begin c).cancelled = true) :
    ∀ f ∈ (a.take c).fired, f.token ≠ t := by
  intro f hf
  obtain hf | ⟨x, hx, -, rfl⟩ := (mem_fired_take h hmade).1 hf
  · exact hsilent f hf
  · rintro rfl
    exact Bool.eq_false_iff.1 ((h.begin hmade).live x hx) hcancelled

/-- **One call** decides on a timer that waits, and on no other. -/
theorem Fate.concat (h : a.IsSound) (hcs : a.Admits (cs ++ [c])) (hfate : a.Fate x cs) :
    a.Fate x (cs ++ [c]) := by
  obtain ⟨hcs, hmade⟩ := hcs.of_concat
  have hsound := h.after hcs
  have hcancelled := cancelled_begin (a.after cs) c
  have htake : (a.after (cs ++ [c])).cancelled = ((a.after cs).begin c).cancelled := by
    rw [after_concat, cancelled_take hsound hmade, hcancelled]
  cases hfate with
  | waits harmed hunreached =>
    obtain hbegin | hdropped := mem_armed_begin (c := c) harmed
    · by_cases hdue : x.deadline ≤ (a.after (cs ++ [c])).timers.clock
      · have hlive := (hsound.begin hmade).live x hbegin
        refine .fired ?_ (reaches_concat.2 (.inr ⟨hdue, htake ▸ hlive⟩))
        rw [after_concat] at hdue ⊢
        exact (mem_fired_take hsound hmade).2 (.inr ⟨x, hbegin, hdue, by rw [firing, hlive]⟩)
      · refine .waits ?_ fun hreached => ?_
        · rw [after_concat] at hdue ⊢
          exact (mem_armed_take hsound hmade).2 ⟨hbegin, Nat.not_le.1 hdue⟩
        · exact (reaches_concat.1 hreached).elim hunreached fun hend => hdue hend.1
    · refine .dropped ?_ (htake ▸ hdropped) fun hreached => ?_
      · rw [after_concat]
        exact hsound.silent_take hmade (hsound.toIsOrderly.token_ne harmed) hdropped
      · exact (reaches_concat.1 hreached).elim hunreached fun hend =>
          Bool.eq_false_iff.1 hend.2 (htake ▸ hdropped)
  | fired hfired hreached =>
    refine .fired ?_ (reaches_concat.2 (.inl hreached))
    rw [after_concat]
    exact (mem_fired_take hsound hmade).2 (.inl hfired)
  | dropped hsilent hdropped hunreached =>
    have hstill : x.token.isCancelled ((a.after cs).begin c).cancelled = true := by
      rw [hcancelled, isCancelled_append, hdropped, Bool.or_true]
    refine .dropped ?_ (htake ▸ hstill) fun hreached => ?_
    · rw [after_concat]
      exact hsound.silent_take hmade hsilent hstill
    · exact (reaches_concat.1 hreached).elim hunreached fun hend =>
        Bool.eq_false_iff.1 hend.2 (htake ▸ hstill)

/-- **The calls decide** on a timer that waits from the start, one after the other. -/
theorem Fate.after (h : a.IsSound) (hcs : a.Admits cs) (hfate : a.Fate x []) : a.Fate x cs := by
  induction cs using List.reverseRecOn with
  | nil => exact hfate
  | append_singleton cs c ih => exact .concat h hcs (ih hcs.of_concat.1)

/-- A timer that is armed when a call begins waits when it has been taken, or is run by it. -/
theorem fate_take (h : a.IsSound) (hmade : ∀ t ∈ c.token?, a.IsMade t)
    (hx : x ∈ (a.begin c).timers.armed) : (a.take c).Fate x [] := by
  have hlive : x.token.isCancelled (a.begin c).cancelled = false := (h.begin hmade).live x hx
  have htake : (a.take c).cancelled = (a.begin c).cancelled := by
    rw [cancelled_take h hmade, cancelled_begin]
  by_cases hdue : x.deadline ≤ (a.take c).timers.clock
  · refine .fired ?_ ⟨[], [], rfl, hdue, htake ▸ hlive⟩
    exact (mem_fired_take h hmade).2 (.inr ⟨x, hx, hdue, by rw [firing, hlive]⟩)
  · refine .waits ((mem_armed_take h hmade).2 ⟨hx, Nat.not_le.1 hdue⟩) ?_
    rintro ⟨p, q, heq, hp, -⟩
    obtain ⟨rfl, -⟩ := List.append_eq_nil_iff.1 heq.symm
    exact hdue hp

/-- **A timer runs once**, when the clock reaches its deadline, unless its token has been cancelled
by then. -/
theorem Fate.filter_fired (h : a.IsSound) (hcs : a.Admits cs) (hfate : a.Fate x cs) :
    (a.Reaches x.deadline x.token cs →
      (a.after cs).fired.filter (fun f => decide (f.token = x.token)) =
        [⟨x.work, x.token, x.deadline, false⟩]) ∧
    (¬ a.Reaches x.deadline x.token cs →
      (a.after cs).fired.filter (fun f => decide (f.token = x.token)) = []) := by
  have hnone : (∀ f ∈ (a.after cs).fired, f.token ≠ x.token) →
      (a.after cs).fired.filter (fun f => decide (f.token = x.token)) = [] :=
    fun hsilent => List.filter_eq_nil_iff.2 fun f hf => by simpa using hsilent f hf
  have hsound := (h.after hcs).toIsOrderly
  cases hfate with
  | waits harmed hunreached =>
    exact ⟨fun hreached => absurd hreached hunreached, fun _ => hnone (hsound.token_ne harmed)⟩
  | fired hfired hreached =>
    exact ⟨fun _ => Table.filter_key_eq (List.nodup_append.1 hsound.once).2.1 hfired,
      fun hunreached => absurd hreached hunreached⟩
  | dropped hsilent _ hunreached =>
    exact ⟨fun hreached => absurd hreached hunreached, fun _ => hnone hsilent⟩

end

/-! ## One call that cancels -/

section

variable {c : Call} {handle t : Token} {x : Timer String}

/-- Cancelling a token leaves those as they are that are not within it. -/
theorem isCancelled_take (h : a.IsSound) (hmade : ∀ t ∈ c.token?, a.IsMade t)
    (hc : a.cancels? c = some handle) (ht : t.isWithin handle = false) :
    t.isCancelled (a.take c).cancelled = t.isCancelled a.cancelled := by
  rw [cancelled_take h hmade, hc, isCancelled_append]
  simp [Token.isCancelled, ht]

/-- A call that cancels takes no time. -/
theorem millis_eq_zero (hc : a.cancels? c = some handle) : c.millis = 0 := by
  cases c <;> first | rfl | cases hc

/-- Cancelling a token leaves the timers armed whose tokens are not within it. -/
theorem mem_armed_take_of_cancels (h : a.IsSound) (hmade : ∀ t ∈ c.token?, a.IsMade t)
    (hc : a.cancels? c = some handle) (hx : x ∈ a.timers.armed)
    (hapart : x.token.isWithin handle = false) : x ∈ (a.take c).timers.armed := by
  have hlive : x.token.isCancelled (a.begin c).cancelled = false := by
    rw [cancelled_begin, hc, isCancelled_append, h.live x hx]
    simp [Token.isCancelled, hapart]
  refine (mem_armed_take h hmade).2 ⟨?_, ?_⟩
  · exact (mem_armed_begin hx).resolve_right (Bool.eq_false_iff.1 hlive)
  · rw [clock_take h hmade, millis_eq_zero hc]
    exact h.ahead x hx

/-- Nothing is run by a call that cancels. -/
theorem fired_take_of_cancels (h : a.IsSound) (hmade : ∀ t ∈ c.token?, a.IsMade t)
    (hc : a.cancels? c = some handle) : (a.take c).fired = a.fired := by
  have hnone : (a.begin c).timers.armed.filter
      (fun x => decide (x.deadline ≤ (a.begin c).timers.clock + c.millis)) = [] := by
    refine List.filter_eq_nil_iff.2 fun x hx hdue => ?_
    have hahead : a.timers.clock < x.deadline := by
      have hbegins := a.begins c
      rw [hc] at hbegins
      generalize a.begin c = b at hbegins hx
      cases hbegins with
      | cancels => exact h.ahead x (List.mem_of_mem_filter hx)
    rw [clock_begin, millis_eq_zero hc] at hdue
    exact Nat.not_le.2 hahead (of_decide_eq_true hdue)
  rw [h.take_eq hmade, Alarms.reach, hnone, fired_begin, List.map_nil, List.append_nil]

end

/-! ## A callback that is accepted -/

section

variable {name : String} {due : Instant} {token handle t : Token} {deadline : Nat}
  {later : List Call}

/-- The alarms `a` accept a callback, and further calls follow. -/
structure IsOneShot (a : Alarms) (name : String) (due : Instant) (token : Token)
    (later : List Call) (handle : Token) (deadline : Nat) : Prop where
  accepted : ∃ b, a.schedule name due token true = .ok b ∧ b.handles.get? name = some handle
  child : ∃ n, handle = token.child n
  fresh : ∀ t, a.IsMade t → t.isWithin handle = false
  /-- The deadline is the first tick that is not before the instant, and not in the past. -/
  notPast : a.timers.clock ≤ deadline
  notEarly : due.nanos ≤ a.timers.start.nanos + deadline * 1000000
  prompt : ∀ n, a.timers.clock ≤ n → due.nanos ≤ a.timers.start.nanos + n * 1000000 → deadline ≤ n
  /-- The callback runs once, at the deadline, and its token is not cancelled then. -/
  fires : (a.take (.schedule name due token)).Reaches deadline handle later →
    ((a.take (.schedule name due token)).after later).fired.filter
      (fun f => decide (f.token = handle)) = [⟨name, handle, deadline, false⟩]
  /-- It does not run before the deadline, or when it has been cancelled by then. -/
  silent : ¬ (a.take (.schedule name due token)).Reaches deadline handle later →
    ((a.take (.schedule name due token)).after later).fired.filter
      (fun f => decide (f.token = handle)) = []
  /-- The callback's token is cancelled with the handle or with what is above it. -/
  told : handle.isCancelled ((a.take (.schedule name due token)).after later).cancelled = true ↔
    ∃ t, (a.take (.schedule name due token)).Cancels later t ∧
      (t = handle ∨ token.isWithin t = true)
  /-- To cancel the handle does nothing to a token or a callback that is not below it. -/
  apart : ∀ b, b = (a.take (.schedule name due token)).after later →
    ∀ c, (∀ t ∈ c.token?, b.IsMade t) → b.cancels? c = some handle →
      (b.take c).fired = b.fired ∧
      (∀ t : Token, t.isWithin handle = false →
        t.isCancelled (b.take c).cancelled = t.isCancelled b.cancelled) ∧
      ∀ x ∈ b.timers.armed, x.token.isWithin handle = false → x ∈ (b.take c).timers.armed
  /-- No token above the handle is below it, -/
  above : ∀ t, token.isWithin t = true → t.isWithin handle = false
  /-- nor is the handle of a later callback whose token is not. -/
  others : ∀ p name' due' token' q, later = p ++ .schedule name' due' token' :: q →
    ∀ b t, ((a.take (.schedule name due token)).after p).schedule name' due' token' true = .ok b →
      b.handles.get? name' = some t → t.isWithin handle = true → token'.isWithin handle = true

theorem IsMade.of_isWithin (h : a.IsMade t) (hwithin : t.isWithin token = true) :
    a.IsMade token :=
  fun n hn => h n ((List.isSuffixOf_iff_suffix.1 hwithin).subset hn)

theorem IsMade.after {cs : List Call} (hsound : a.IsSound) (hcs : a.Admits cs) (h : a.IsMade t) :
    (a.after cs).IsMade t := by
  induction cs generalizing a with
  | nil => exact h
  | cons c cs ih => exact ih (hsound.take hcs.1) hcs.2 (h.mono (nextToken_take_le hsound hcs.1))

/-- A call that is rejected changes nothing. -/
theorem take_of_isCancelled (h : a.IsSound) (hmade : a.IsMade token)
    (hcancelled : token.isCancelled a.cancelled = true) :
    a.take (.schedule name due token) = a := by
  have hbegin : a.begin (.schedule name due token) = a := by
    rw [Alarms.begin, schedule_of_isCancelled hcancelled]
    rfl
  have hmade : ∀ t ∈ (Call.schedule name due token).token?, a.IsMade t := by
    rintro t ht
    cases ht
    exact hmade
  have hahead : a.timers.armed.filter (fun x => decide (a.timers.clock < x.deadline)) =
      a.timers.armed := List.filter_eq_self.2 fun x hx => decide_eq_true (h.ahead x hx)
  have hnone : a.timers.armed.filter (fun x => decide (x.deadline ≤ a.timers.clock)) = [] :=
    List.filter_eq_nil_iff.2 fun x hx => by simpa using h.ahead x hx
  rw [h.take_eq hmade, hbegin]
  change a.reach (a.timers.clock + 0) = a
  rw [Nat.add_zero, Alarms.reach, hahead, hnone, List.map_nil, List.append_nil]

/-- **A callback that is accepted.** -/
theorem isOneShot (h : a.IsSound) (hcs : a.Admits (.schedule name due token :: later))
    (hlive : token.isCancelled a.cancelled = false) :
    a.IsOneShot name due token later (token.child a.nextToken) (a.timers.deadline due) := by
  have hmade : a.IsMade token := hcs.1 token rfl
  have hbegin : a.begin (.schedule name due token) = a.accept name due token := by
    rw [Alarms.begin, schedule_of_not_isCancelled hlive]
    rfl
  have hsound := h.take hcs.1
  have hcancelled : (a.take (.schedule name due token)).cancelled = a.cancelled :=
    cancelled_take h hcs.1
  have hfate := fate_take (x := ⟨a.timers.deadline due, token.child a.nextToken, name⟩) h hcs.1
    (hbegin ▸ Timers.mem_place.2 (.inl rfl))
  have hfires := (hfate.after hsound hcs.2).filter_fired hsound hcs.2
  have hchild : (a.take (.schedule name due token)).IsMade (token.child a.nextToken) := by
    have haccept : (a.accept name due token).IsMade (token.child a.nextToken) := hmade.child
    rw [h.take_eq hcs.1, hbegin]
    exact haccept
  refine {
    accepted := ⟨_, schedule_of_not_isCancelled hlive, Table.get?_put_self ..⟩
    child := ⟨_, rfl⟩
    fresh := fun t ht => ht.not_isWithin_child
    notPast := Timers.clock_le_deadline _ _
    notEarly := Timers.le_deadline _ _
    prompt := fun n => Timers.deadline_le _ _
    fires := hfires.1
    silent := hfires.2
    told := ?_
    apart := ?_
    above := fun t ht => (hmade.of_isWithin ht).not_isWithin_child
    others := ?_ }
  · rw [isCancelled_after hsound hcs.2, hcancelled, h.toIsOrderly.child_not_isCancelled hlive]
    simp only [Bool.false_eq_true, false_or]
    exact exists_congr fun t => and_congr_right fun _ =>
      Token.isWithin_child_iff.trans (or_congr_left eq_comm)
  · rintro b rfl c hc hcancels
    have hb := hsound.after hcs.2
    exact ⟨fired_take_of_cancels hb hc hcancels, fun t => isCancelled_take hb hc hcancels,
      fun x => mem_armed_take_of_cancels hb hc hcancels⟩
  · rintro p name' due' token' q rfl b t hb hget hwithin
    cases hcancelled' : token'.isCancelled
        ((a.take (.schedule name due token)).after p).cancelled with
    | true =>
      rw [schedule_of_isCancelled hcancelled'] at hb
      cases hb
    | false =>
      rw [schedule_of_not_isCancelled hcancelled'] at hb
      cases hb
      rw [Alarms.accept, Table.get?_put_self] at hget
      cases hget
      have hp := hchild.after hsound hcs.2.append_left
      exact (Token.isWithin_child_iff.1 hwithin).resolve_left fun heq => hp.ne_child heq.symm

/-- **A callback runs once.** One whose token is cancelled is rejected and leaves no trace; any other
runs when the clock reaches its deadline, unless it is cancelled by then. -/
theorem fires_once (start : Instant) (before later : List Call) (name : String) (due : Instant)
    (token : Token) (h : (new start).Admits (before ++ .schedule name due token :: later)) :
    (token.isCancelled ((new start).after before).cancelled = true →
      ((new start).after before).schedule name due token true = .error .cancelled ∧
      ((new start).after before).take (.schedule name due token) = (new start).after before) ∧
    (token.isCancelled ((new start).after before).cancelled = false →
      ∃ handle deadline,
        ((new start).after before).IsOneShot name due token later handle deadline) := by
  have hsound := (isSound_new start).after h.append_left
  exact ⟨fun hcancelled => ⟨schedule_of_isCancelled hcancelled,
      take_of_isCancelled hsound (h.append_right.1 token rfl) hcancelled⟩,
    fun hlive => ⟨_, _, isOneShot hsound h.append_right hlive⟩⟩

/-- One of two callbacks under a token is cancelled, and the other one is still to run. -/
theorem fires_once_sibling :
    (new ⟨0⟩).Admits ([.mint, .schedule "tick" ⟨5000000⟩ (.root 0)] ++
      .schedule "tock" ⟨7000000⟩ (.root 0) :: [.cancelHandle "tick", .advance 9]) ∧
    ∃ handle deadline,
      ((new ⟨0⟩).after [.mint, .schedule "tick" ⟨5000000⟩ (.root 0)]).IsOneShot "tock" ⟨7000000⟩
        (.root 0) [.cancelHandle "tick", .advance 9] handle deadline :=
  have h : (new ⟨0⟩).Admits ([.mint, .schedule "tick" ⟨5000000⟩ (.root 0)] ++
      .schedule "tock" ⟨7000000⟩ (.root 0) :: [.cancelHandle "tick", .advance 9]) := by decide
  ⟨h, (fires_once ⟨0⟩ _ _ "tock" ⟨7000000⟩ (.root 0) h).2 (by decide)⟩

end

end Alarms

end DurableFlow
